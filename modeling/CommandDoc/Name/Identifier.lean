import CommandDoc.Text.Blank

/-!
# Generated identifiers

The structs of a generated program need names: any text gives an identifier in Pascal case, and a pool
of used names keeps the identifiers of one program apart.

Main definitions:

- `identifier` turns a text into an identifier.
- `NamePool.allocate` hands out an identifier that is not in use, with a number behind it if needed.
-/

namespace CommandDoc

/-! ## One identifier -/

/-- The word that stands in where a text gives no identifier of its own. -/
def fallbackWord : List Char := "Cmd".toList

/-- A word with its first letter in upper case. -/
def capitalize : List Char → List Char
  | [] => []
  | c :: cs => c.toUpper :: cs

/-- The words of a text, its maximal runs of ASCII letters and digits, joined with their first letters in
upper case. -/
def pascalWords (cs : List Char) : List Char :=
  (Text.nonemptyFields (fun c => !c.isAlphanum) cs).flatMap capitalize

/-- The identifier of a text: its words in Pascal case, behind the fallback word if that is empty or
starts with a digit. -/
def identifier (seed : String) : String :=
  match pascalWords seed.toList with
  | [] => String.ofList fallbackWord
  | c :: cs => String.ofList (if c.isDigit then fallbackWord ++ c :: cs else c :: cs)

/-! ## Many identifiers -/

/-- Names that are never handed out, because every generated program defines them. -/
def reservedNames : List String :=
  ["Context", "Execute", "Flag", "FlagSet", "Main", "RootCmd", "Usage", "UserError"]

/-- The names in use. -/
structure NamePool where
  /-- Every reserved name and every name handed out. -/
  used : List String
  deriving Repr, DecidableEq

namespace NamePool

/-- A pool in which `extra` names are reserved too. -/
def withReserved (extra : List String) : NamePool :=
  ⟨reservedNames ++ extra⟩

/-- Whether a name is in use. -/
def isUsed (pool : NamePool) (name : String) : Bool :=
  pool.used.contains name

/-- The first of `base` with the numbers from `n` on that is not used, among `fuel` of them. As the numbered
names are all different, `used.length + 1` of them hold a free one. -/
def numberedFrom (used : List String) (base : String) : Nat → Nat → String
  | 0, n => base ++ toString n
  | fuel + 1, n =>
    if used.contains (base ++ toString n) then numberedFrom used base fuel (n + 1)
    else base ++ toString n

/-- The name a seed gets: its identifier, or the identifier with the least number from 2 on that makes it
free. -/
def freshName (pool : NamePool) (seed : String) : String :=
  if pool.isUsed (identifier seed) then numberedFrom pool.used (identifier seed) pool.used.length 2
  else identifier seed

/-- Hand out a name for a seed and mark it as used. -/
def allocate (pool : NamePool) (seed : String) : String × NamePool :=
  (pool.freshName seed, ⟨pool.freshName seed :: pool.used⟩)

/-- Hand out a name for each seed in turn. -/
def allocateAll (pool : NamePool) : List String → List String
  | [] => []
  | seed :: seeds => (pool.allocate seed).1 :: allocateAll (pool.allocate seed).2 seeds

end NamePool

end CommandDoc
