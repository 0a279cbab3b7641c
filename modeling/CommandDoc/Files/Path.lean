import CommandDoc.Ordered
import CommandDoc.Text.Blank

/-!
# Paths

A path is kept as it was written, as it is shown in that way. Two paths are compared by their steps: a
doubled slash, a slash at the end, and a dot that is not the first piece make no step.

Main definitions:

- `Path` with `Path.steps`, `Path.name?`, `Path.extension?`, `Path.parent?` and `Path.join`.
- `Path.before`: the order of paths.

Main statements: `Path.stepsBefore_strictOrder` says that any two paths with different steps have an order.
-/

namespace CommandDoc

/-- A path as it was written. -/
structure Path where
  /-- Its text. -/
  text : String
  deriving Repr, DecidableEq

namespace Path

/-! ## Steps -/

/-- A step on the way that a path goes. -/
inductive Step where
  /-- To the topmost folder. -/
  | root
  /-- To the folder where the path starts; only the first step can be this one. -/
  | here
  /-- To the folder around. -/
  | up
  /-- To something with a name. -/
  | name (s : String)
  deriving Repr, DecidableEq

/-- The pieces between the slashes. -/
def pieces (path : Path) : List (List Char) :=
  Text.fields (· == '/') path.text.toList

/-- Whether a piece is empty or a dot. -/
def isFiller (piece : List Char) : Bool :=
  piece.isEmpty || piece == ['.']

/-- The step of a piece behind the first one. -/
def stepOf? (piece : List Char) : Option Step :=
  if isFiller piece then none
  else if piece == ['.', '.'] then some .up
  else some (.name (String.ofList piece))

/-- The steps of a path. -/
def steps (path : Path) : List Step :=
  match path.pieces with
  | [] => []
  | first :: rest =>
    let start :=
      if first.isEmpty then if rest.isEmpty then none else some .root
      else if first == ['.'] then some .here
      else stepOf? first
    start.toList ++ rest.filterMap stepOf?

/-! ## Order -/

/-- The place of a kind of step in the order. -/
def Step.rank : Step → Nat
  | root => 0
  | here => 1
  | up => 2
  | name _ => 3

/-- The order of steps: names come last, by their code points. -/
def Step.before : Step → Step → Bool
  | .name s, .name t => Ordered.stringBefore s t
  | s, t => decide (s.rank < t.rank)

/-- The order of lists of steps, by the first step in which they differ; a shorter list comes before its
extensions. -/
def stepsBefore : List Step → List Step → Bool
  | [], [] => false
  | [], _ :: _ => true
  | _ :: _, [] => false
  | s :: ss, t :: ts => s.before t || (s == t && stepsBefore ss ts)

/-- The order of paths. -/
def before (p q : Path) : Bool :=
  stepsBefore p.steps q.steps

/-- Steps have a strict total order. -/
theorem Step.before_strictOrder : Ordered.StrictOrder Step.before where
  irrefl s := by cases s <;> simp [before, rank, Ordered.stringBefore_strictOrder.irrefl]
  trans s t u := by
    cases s <;> cases t <;> cases u <;> simp [before, rank]
    exact Ordered.stringBefore_strictOrder.trans _ _ _
  connected s t := by
    cases s <;> cases t <;> simp [before, rank]
    exact Ordered.stringBefore_strictOrder.connected _ _

/-- Lists of steps have a strict total order. -/
theorem stepsBefore_strictOrder : Ordered.StrictOrder stepsBefore where
  irrefl ss := by
    induction ss with
    | nil => rfl
    | cons s ss ih => simp [stepsBefore, ih, Step.before_strictOrder.irrefl]
  trans ss ts us := by
    induction ss generalizing ts us with
    | nil => cases ts <;> cases us <;> simp [stepsBefore]
    | cons s ss ih =>
      cases ts with
      | nil => simp [stepsBefore]
      | cons t ts =>
        cases us with
        | nil => simp [stepsBefore]
        | cons u us =>
          simp only [stepsBefore, Bool.or_eq_true, Bool.and_eq_true, beq_iff_eq]
          rintro (hst | ⟨rfl, hst⟩) (htu | ⟨rfl, htu⟩)
          · exact .inl (Step.before_strictOrder.trans _ _ _ hst htu)
          · exact .inl hst
          · exact .inl htu
          · exact .inr ⟨rfl, ih _ _ hst htu⟩
  connected ss ts := by
    induction ss generalizing ts with
    | nil => cases ts <;> simp [stepsBefore]
    | cons s ss ih =>
      cases ts with
      | nil => simp [stepsBefore]
      | cons t ts =>
        simp only [stepsBefore, Bool.or_eq_false_iff, Bool.and_eq_false_iff, beq_eq_false_iff_ne]
        rintro ⟨hst, hrest⟩ ⟨hts, hback⟩
        have heq : s = t := Step.before_strictOrder.connected _ _ hst hts
        subst heq
        rw [ih ts (by simpa using hrest) (by simpa using hback)]

/-! ## Parts -/

/-- The name of what a path leads to. -/
def name? (path : Path) : Option String :=
  match path.steps.getLast? with
  | some (.name s) => some s
  | _ => none

/-- The text behind the last dot of a name. A dot at its start does not count. -/
def extensionOf? (name : List Char) : Option (List Char) :=
  let tail := name.reverse.takeWhile (· != '.')
  if tail.length + 1 < name.length then some tail.reverse else none

/-- The extension of the name of what a path leads to. -/
def extension? (path : Path) : Option String :=
  (path.name?.bind fun name => extensionOf? name.toList).map String.ofList

/-- Put slashes between pieces. -/
def ofPieces (pieces : List (List Char)) : Path :=
  ⟨String.ofList (['/'].intercalate pieces)⟩

/-- The path to the folder around, for a path that goes a step. -/
def parent? (path : Path) : Option Path :=
  match path.pieces with
  | [] => none
  | first :: rest =>
    let steps := Text.dropTail isFiller rest
    if steps.isEmpty then if first.isEmpty then none else some ⟨""⟩
    else
      let outer := Text.dropTail isFiller steps.dropLast
      if outer.isEmpty && first.isEmpty then some ⟨"/"⟩ else some (ofPieces (first :: outer))

/-- The path to something in a folder. -/
def join (folder : Path) (name : String) : Path :=
  if folder.text.isEmpty || folder.text.toList.getLast? == some '/' then ⟨folder.text ++ name⟩
  else ⟨folder.text ++ "/" ++ name⟩

end Path

end CommandDoc
