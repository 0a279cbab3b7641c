import CommandDoc.Proofs.Ordered
import CommandDoc.Tree.Basic

/-!
# What a tree holds after any insertions

A command tree is grown by insertions, some of which are refused.  This module gives the tree a closed form
in the declarations that were offered: at each path stands the first declaration offered for it, every start
of an offered path is there, and the packages are those of all offered functions.  Each insertion keeps the
closed form, so it holds after any run of insertions.

Main results:

- Theorem `CommandTree.insertEach_empty`: a run of insertions, refused ones included, gives the closed form.
- Theorem `CommandTree.insert_ofDeclarations_eq_none_iff`: a declaration is accepted exactly if none was
  offered for its command and path before.
- Theorem `CommandTree.insertAll_eq_none_iff`: a run without refusal is one in which all places differ.
- Theorem `CommandTree.ofDeclarations_eq_of_perm`: declarations at different places give one tree in any
  order.
-/

namespace CommandDoc

/-! ## Paths -/

/-- The order of paths is strict. -/
theorem pathBefore_strictOrder : Ordered.StrictOrder pathBefore where
  irrefl p := decide_eq_false (List.lt_irrefl p)
  trans p q r := by
    simp only [pathBefore, decide_eq_true_eq]
    exact List.lt_trans
  connected p q := by
    simp only [pathBefore, decide_eq_false_iff_not]
    intro h₁ h₂
    exact List.le_antisymm (List.not_lt.mp h₂) (List.not_lt.mp h₁)

/-- The starts of a path are its prefixes with at least one word. -/
theorem mem_starts {p path : List String} : p ∈ starts path ↔ p ≠ [] ∧ p <+: path := by
  induction path generalizing p with
  | nil =>
    simp only [starts, List.not_mem_nil, List.prefix_nil, false_iff, not_and]
    exact fun hne heq => hne heq
  | cons word rest ih =>
    rw [starts, List.mem_cons, List.mem_map]
    constructor
    · rintro (rfl | ⟨q, hq, rfl⟩)
      · exact ⟨by simp, by simp⟩
      · exact ⟨by simp, List.cons_prefix_cons.mpr ⟨rfl, (ih.mp hq).2⟩⟩
    · rintro ⟨hne, hprefix⟩
      cases p with
      | nil => exact absurd rfl hne
      | cons first q =>
        obtain ⟨rfl, hq⟩ := List.cons_prefix_cons.mp hprefix
        by_cases hnil : q = []
        · exact Or.inl (by rw [hnil])
        · exact Or.inr ⟨q, ih.mpr ⟨hnil, hq⟩, rfl⟩

/-! ## Places -/

/-- The place of a declaration in a tree: its command and its path. -/
def Declaration.place (d : Declaration) : String × List String :=
  (d.command, d.path)

/-- The first declaration at a path. -/
def firstAt? (ds : List Declaration) (path : List String) : Option Declaration :=
  ds.find? (·.path == path)

/-- The declarations of one command. -/
def declarationsOf (ds : List Declaration) (command : String) : List Declaration :=
  ds.filter (·.command == command)

/-- The declarations of a command are those of each part of the list. -/
theorem declarationsOf_append (ds es : List Declaration) (command : String) :
    declarationsOf (ds ++ es) command = declarationsOf ds command ++ declarationsOf es command :=
  List.filter_append ..

/-- A command that no declaration names has none. -/
theorem declarationsOf_eq_nil {ds : List Declaration} {command : String} (h : ∀ d ∈ ds, d.command ≠ command) :
    declarationsOf ds command = [] := by
  rw [declarationsOf, List.filter_eq_nil_iff]
  intro d hd
  simpa using h d hd

/-- A later declaration comes first at a path only where no earlier one does. -/
theorem firstAt?_concat (ds : List Declaration) (d : Declaration) (path : List String) :
    firstAt? (ds ++ [d]) path = (firstAt? ds path).or (if d.path = path then some d else none) := by
  rw [firstAt?, List.find?_append, List.find?_singleton]
  simp only [beq_iff_eq]
  rfl

/-- No declaration comes first at a path exactly if none stands there. -/
theorem firstAt?_eq_none_iff {ds : List Declaration} {path : List String} :
    firstAt? ds path = none ↔ ∀ d ∈ ds, d.path ≠ path := by
  simp [firstAt?, List.find?_eq_none]

/-- The first declaration at a path has that path. -/
theorem path_of_firstAt?_eq_some {ds : List Declaration} {path : List String} {d : Declaration}
    (h : firstAt? ds path = some d) : d.path = path := by
  simpa using List.find?_some h

/-- No declaration of a command is at a path exactly if its place is not taken. -/
theorem firstAt?_declarationsOf_eq_none_iff {ds : List Declaration} {d : Declaration} :
    firstAt? (declarationsOf ds d.command) d.path = none ↔ d.place ∉ ds.map Declaration.place := by
  simp only [firstAt?_eq_none_iff, declarationsOf, List.mem_filter, beq_iff_eq, List.mem_map,
    Declaration.place, Prod.mk.injEq, not_exists, not_and, and_imp]

/-! ## The closed form of a branch -/

namespace Branch

/-- Every start of the paths of declarations, in order. -/
def startsOf (ds : List Declaration) : List (List String) :=
  Ordered.sortDistinct pathBefore (ds.flatMap fun d => starts d.path)

/-- The branch of a command with these declarations, of which the first at each path counts. -/
def ofDeclarations (ds : List Declaration) : Branch where
  root := firstAt? ds []
  packages := Ordered.sortStrings (ds.map (·.binding.package))
  nodes := (startsOf ds).map fun path => (path, firstAt? ds path)

/-- No declaration stands at a path that starts none of theirs. -/
theorem firstAt?_eq_none_of_not_mem {ds : List Declaration} {path : List String} (hne : path ≠ [])
    (h : path ∉ ds.flatMap fun d => starts d.path) : firstAt? ds path = none := by
  rw [firstAt?_eq_none_iff]
  rintro d hd rfl
  exact h (List.mem_flatMap.mpr ⟨d, hd, mem_starts.mpr ⟨hne, List.prefix_refl _⟩⟩)

/-- Making sure that paths are there adds them to a map that tabulates a function with no value off its
keys. -/
theorem foldl_touch_map (f : List String → Option Declaration) (paths keys : List (List String))
    (hkeys : ∀ path ∈ paths, path ∉ keys → f path = none) :
    paths.foldl touch ((Ordered.sortDistinct pathBefore keys).map fun path => (path, f path))
      = (Ordered.sortDistinct pathBefore (keys ++ paths)).map fun path => (path, f path) := by
  induction paths generalizing keys with
  | nil => simp
  | cons path paths ih =>
    have htouch : touch ((Ordered.sortDistinct pathBefore keys).map fun p => (p, f p)) path
        = (Ordered.sortDistinct pathBefore (keys ++ [path])).map fun p => (p, f p) := by
      rw [touch, Ordered.update_map pathBefore_strictOrder
        (Ordered.pairwise_sortDistinct pathBefore_strictOrder keys),
        Ordered.insertDistinct_sortDistinct pathBefore_strictOrder]
      apply List.map_congr_left
      intro p _
      by_cases hp : p = path
      · subst hp
        rw [if_pos rfl]
        by_cases hmem : p ∈ Ordered.sortDistinct pathBefore keys
        · rw [if_pos hmem, Option.getD_some]
        · have hnot : p ∉ keys := fun h => hmem ((Ordered.mem_sortDistinct pathBefore_strictOrder).mpr h)
          rw [if_neg hmem, Option.getD_none, hkeys p List.mem_cons_self hnot]
      · rw [if_neg hp]
    rw [List.foldl_cons, htouch, ih, List.append_assoc, List.singleton_append]
    intro p hp hnot
    refine hkeys p (List.mem_cons_of_mem _ hp) fun hmem => hnot ?_
    exact List.mem_append_left _ hmem

/-- What one insertion does to the branch of its command. -/
def record (branch : Branch) (d : Declaration) : Branch :=
  let noted := (branch.notePackage d.binding.package).grow d.path
  match noted.declared? d.path with
  | some _ => noted
  | none => noted.place d

/-- The closed form after the package and the path of a further declaration are noted. -/
theorem grow_notePackage_ofDeclarations (ds : List Declaration) (d : Declaration) :
    ((ofDeclarations ds).notePackage d.binding.package).grow d.path
      = { root := firstAt? ds []
          packages := Ordered.sortStrings ((ds ++ [d]).map (·.binding.package))
          nodes := (startsOf (ds ++ [d])).map fun path => (path, firstAt? ds path) } := by
  have hpackages : Ordered.insertDistinct Ordered.stringBefore d.binding.package
        (Ordered.sortStrings (ds.map (·.binding.package)))
      = Ordered.sortStrings ((ds ++ [d]).map (·.binding.package)) := by
    rw [Ordered.sortStrings, Ordered.insertDistinct_sortDistinct Ordered.stringBefore_strictOrder,
      List.map_append]
    rfl
  have hnodes : (starts d.path).foldl touch ((startsOf ds).map fun path => (path, firstAt? ds path))
      = (startsOf (ds ++ [d])).map fun path => (path, firstAt? ds path) := by
    rw [startsOf, foldl_touch_map, startsOf, List.flatMap_append, List.flatMap_singleton]
    intro path hpath hnot
    exact firstAt?_eq_none_of_not_mem (mem_starts.mp hpath).1 hnot
  rw [grow, notePackage, ofDeclarations, hpackages, hnodes]

/-- The paths of a branch are the non-empty starts of its declarations. -/
theorem mem_startsOf {ds : List Declaration} {path : List String} :
    path ∈ startsOf ds ↔ path ≠ [] ∧ ∃ d ∈ ds, path <+: d.path := by
  rw [startsOf, Ordered.mem_sortDistinct pathBefore_strictOrder, List.mem_flatMap]
  constructor
  · rintro ⟨d, hd, hpath⟩
    exact ⟨(mem_starts.mp hpath).1, d, hd, (mem_starts.mp hpath).2⟩
  · rintro ⟨hne, d, hd, hprefix⟩
    exact ⟨d, hd, mem_starts.mpr ⟨hne, hprefix⟩⟩

/-- They are listed in the order of paths. -/
theorem pairwise_startsOf (ds : List Declaration) :
    (startsOf ds).Pairwise fun p q => pathBefore p q = true :=
  Ordered.pairwise_sortDistinct pathBefore_strictOrder _

/-- The path of the last declaration is among them. -/
theorem path_mem_startsOf_concat (ds : List Declaration) {d : Declaration} (hne : d.path ≠ []) :
    d.path ∈ startsOf (ds ++ [d]) :=
  mem_startsOf.mpr ⟨hne, d, by simp, List.prefix_refl _⟩

/-- What an insertion finds at the path of its declaration. -/
theorem declared?_grow_notePackage_ofDeclarations (ds : List Declaration) (d : Declaration) :
    (((ofDeclarations ds).notePackage d.binding.package).grow d.path).declared? d.path
      = firstAt? ds d.path := by
  rw [grow_notePackage_ofDeclarations, declared?]
  by_cases hnil : d.path = []
  · simp [hnil]
  · rw [if_neg (by simpa using hnil), Ordered.find?_map, if_pos (path_mem_startsOf_concat ds hnil)]
    rfl

/-- An insertion keeps the closed form of its branch. -/
theorem record_ofDeclarations (ds : List Declaration) (d : Declaration) :
    (ofDeclarations ds).record d = ofDeclarations (ds ++ [d]) := by
  have hdeclared := declared?_grow_notePackage_ofDeclarations ds d
  rw [grow_notePackage_ofDeclarations] at hdeclared
  simp only [record, grow_notePackage_ofDeclarations, hdeclared]
  cases hfirst : firstAt? ds d.path with
  | some existing =>
    -- The path is taken, so the further declaration counts nowhere.
    have hsame : ∀ path, firstAt? (ds ++ [d]) path = firstAt? ds path := by
      intro path
      rw [firstAt?_concat]
      by_cases hpath : d.path = path
      · rw [← hpath, hfirst]; rfl
      · rw [if_neg hpath, Option.or_none]
    simp only [ofDeclarations, hsame]
  | none =>
    have hadded : ∀ path,
        firstAt? (ds ++ [d]) path = if path = d.path then some d else firstAt? ds path := by
      intro path
      rw [firstAt?_concat]
      by_cases hpath : path = d.path
      · rw [if_pos hpath, if_pos hpath.symm, hpath, hfirst]; rfl
      · rw [if_neg hpath, if_neg (Ne.symm hpath), Option.or_none]
    simp only [place, ofDeclarations, hadded]
    by_cases hnil : d.path = []
    · rw [if_pos (by simp [hnil]), if_pos hnil.symm]
      congr 1
      apply List.map_congr_left
      intro path hpath
      rw [if_neg (by rw [hnil]; exact (mem_startsOf.mp hpath).1)]
    · rw [if_neg (by simpa using hnil), if_neg (Ne.symm hnil),
        Ordered.put_map pathBefore_strictOrder (pairwise_startsOf _),
        Ordered.insertDistinct_eq_self pathBefore_strictOrder (pairwise_startsOf _)
          (path_mem_startsOf_concat ds hnil)]

end Branch

/-! ## The closed form of a tree -/

namespace CommandTree

/-- The tree of these declarations, of which the first at each place counts. -/
def ofDeclarations (ds : List Declaration) : CommandTree where
  commands := (Ordered.sortStrings (ds.map (·.command))).map fun command =>
    (command, Branch.ofDeclarations (declarationsOf ds command))

/-- Insert declarations one after another, whether they are accepted or not. -/
def insertEach (tree : CommandTree) (ds : List Declaration) : CommandTree :=
  ds.foldl (fun grown d => (grown.insert d).1) tree

/-- The tree of no declarations is the empty one. -/
theorem ofDeclarations_nil : ofDeclarations [] = {} := rfl

/-- The branch of a command in the closed form; it is empty for a command without declarations. -/
theorem branch_ofDeclarations (ds : List Declaration) (command : String) :
    (ofDeclarations ds).branch command = Branch.ofDeclarations (declarationsOf ds command) := by
  rw [branch, ofDeclarations, Ordered.find?_map]
  split
  · rfl
  · next hnot =>
    have hnone : declarationsOf ds command = [] := by
      apply declarationsOf_eq_nil
      intro d hd hcommand
      refine hnot ((Ordered.mem_sortDistinct Ordered.stringBefore_strictOrder).mpr ?_)
      exact List.mem_map.mpr ⟨d, hd, hcommand⟩
    rw [hnone]
    rfl

/-- What an insertion does to a tree: only the branch of its command changes. -/
theorem insert_fst (tree : CommandTree) (d : Declaration) :
    (tree.insert d).1
      = ⟨Ordered.put Ordered.stringBefore d.command ((tree.branch d.command).record d)
          tree.commands⟩ := by
  simp only [insert, Branch.record]
  split <;> simp_all only

/-- An insertion keeps the closed form. -/
theorem insert_ofDeclarations (ds : List Declaration) (d : Declaration) :
    ((ofDeclarations ds).insert d).1 = ofDeclarations (ds ++ [d]) := by
  rw [insert_fst, branch_ofDeclarations, Branch.record_ofDeclarations, ofDeclarations, ofDeclarations,
    Ordered.sortStrings, Ordered.put_map Ordered.stringBefore_strictOrder
      (Ordered.pairwise_sortDistinct Ordered.stringBefore_strictOrder _),
    Ordered.insertDistinct_sortDistinct Ordered.stringBefore_strictOrder, List.map_append]
  congr 1
  apply List.map_congr_left
  intro command _
  by_cases hcommand : command = d.command
  · simp [declarationsOf, hcommand]
  · simp [declarationsOf, hcommand, Ne.symm hcommand]

/-- A run of insertions keeps the closed form. -/
theorem insertEach_ofDeclarations (ds es : List Declaration) :
    (ofDeclarations ds).insertEach es = ofDeclarations (ds ++ es) := by
  induction es generalizing ds with
  | nil => simp [insertEach]
  | cons e es ih =>
    have hstep : (ofDeclarations ds).insertEach (e :: es)
        = (ofDeclarations (ds ++ [e])).insertEach es := by
      rw [insertEach, List.foldl_cons, insert_ofDeclarations, insertEach]
    rw [hstep, ih, List.append_assoc, List.singleton_append]

/-- After any run of insertions into an empty tree, the tree is that of the declarations offered. -/
theorem insertEach_empty (ds : List Declaration) :
    ({} : CommandTree).insertEach ds = ofDeclarations ds := by
  rw [← ofDeclarations_nil, insertEach_ofDeclarations, List.nil_append]

/-- A declaration is refused exactly if one at its place was offered before. -/
theorem insert_ofDeclarations_eq_none_iff {ds : List Declaration} {d : Declaration} :
    ((ofDeclarations ds).insert d).2 = none ↔ d.place ∉ ds.map Declaration.place := by
  rw [← firstAt?_declarationsOf_eq_none_iff]
  simp only [insert, branch_ofDeclarations]
  rw [← Branch.declared?_grow_notePackage_ofDeclarations]
  split <;> simp_all

/-- A declaration at a new place is accepted, and the tree is that of one more declaration. -/
theorem insert_ofDeclarations_of_new {ds : List Declaration} {d : Declaration}
    (hnew : d.place ∉ ds.map Declaration.place) :
    (ofDeclarations ds).insert d = (ofDeclarations (ds ++ [d]), none) :=
  Prod.ext (insert_ofDeclarations ds d) (insert_ofDeclarations_eq_none_iff.mpr hnew)

/-- A declaration at a taken place is refused; the tree then records no more than its package. -/
theorem insert_ofDeclarations_of_taken {ds : List Declaration} {d : Declaration}
    (htaken : d.place ∈ ds.map Declaration.place) :
    ∃ error, (ofDeclarations ds).insert d = (ofDeclarations (ds ++ [d]), some error) := by
  cases hrefused : ((ofDeclarations ds).insert d).2 with
  | none => exact absurd htaken (insert_ofDeclarations_eq_none_iff.mp hrefused)
  | some error => exact ⟨error, Prod.ext (insert_ofDeclarations ds d) hrefused⟩

/-- A run of insertions up to the first refusal meets none exactly if all places differ from each other and
from those before. -/
theorem insertAll_ofDeclarations_eq_none_iff {ds es : List Declaration} {tree : CommandTree} :
    (ofDeclarations ds).insertAll es = (tree, none) ↔
      (es.map Declaration.place).Nodup ∧ (∀ e ∈ es, e.place ∉ ds.map Declaration.place) ∧
        tree = ofDeclarations (ds ++ es) := by
  induction es generalizing ds with
  | nil => simp [insertAll, eq_comm]
  | cons e es ih =>
    rw [insertAll]
    by_cases htaken : e.place ∈ ds.map Declaration.place
    · obtain ⟨error, hinsert⟩ := insert_ofDeclarations_of_taken htaken
      rw [hinsert]
      constructor
      · intro h
        exact absurd (congrArg Prod.snd h) (by simp)
      · rintro ⟨_, hnew, _⟩
        exact absurd htaken (hnew e List.mem_cons_self)
    · rw [insert_ofDeclarations_of_new htaken]
      simp only [ih, List.map_append, List.map_cons, List.map_nil, List.nodup_cons,
        List.mem_append, List.not_mem_nil, or_false, List.append_assoc, List.singleton_append, not_or,
        List.mem_cons, forall_eq_or_imp, htaken, not_false_eq_true, true_and]
      constructor
      · rintro ⟨hnodup, hplaces, htree⟩
        refine ⟨⟨?_, hnodup⟩, fun d hd => (hplaces d hd).1, htree⟩
        intro hmem
        obtain ⟨d, hd, hplace⟩ := List.mem_map.mp hmem
        exact (hplaces d hd).2 hplace
      · rintro ⟨⟨hnot, hnodup⟩, hplaces, htree⟩
        refine ⟨hnodup, fun d hd => ⟨hplaces d hd, ?_⟩, htree⟩
        intro hplace
        exact hnot (List.mem_map.mpr ⟨d, hd, hplace⟩)

/-- A run of insertions into an empty tree meets no refusal exactly if all places differ. -/
theorem insertAll_eq_none_iff {ds : List Declaration} {tree : CommandTree} :
    ({} : CommandTree).insertAll ds = (tree, none) ↔
      (ds.map Declaration.place).Nodup ∧ tree = ofDeclarations ds := by
  rw [← ofDeclarations_nil, insertAll_ofDeclarations_eq_none_iff]
  simp

/-- The branch of a command is built from its own declarations. -/
theorem eq_of_mem_commands_ofDeclarations {ds : List Declaration} {entry : String × Branch}
    (h : entry ∈ (ofDeclarations ds).commands) :
    entry.2 = Branch.ofDeclarations (declarationsOf ds entry.1) := by
  obtain ⟨command, _, rfl⟩ := List.mem_map.mp h
  rfl

/-- The commands of the tree are those of its declarations, in order of their names. -/
theorem map_fst_commands_ofDeclarations (ds : List Declaration) :
    (ofDeclarations ds).commands.map (·.1) = Ordered.sortStrings (ds.map (·.command)) := by
  rw [ofDeclarations, List.map_map]
  exact List.map_id _

/-! ## Independence of the order -/

/-- Among declarations at different places, the first at a path of a command does not depend on the order,
as there is only one. -/
theorem firstAt?_declarationsOf_eq_of_perm {ds es : List Declaration} (hperm : ds.Perm es)
    (hnodup : (ds.map Declaration.place).Nodup) (command : String) (path : List String) :
    firstAt? (declarationsOf ds command) path = firstAt? (declarationsOf es command) path := by
  have hplace : ∀ d : Declaration, (d.command == command && d.path == path) = true →
      d.place = (command, path) := by
    intro d hd
    simpa [Declaration.place] using hd
  have hfind : ∀ fs : List Declaration, firstAt? (declarationsOf fs command) path
      = (fs.filter fun d => d.command == command && d.path == path).head? := by
    intro fs
    rw [firstAt?, declarationsOf, ← List.head?_filter, List.filter_filter]
    simp only [Bool.and_comm]
  rw [hfind, hfind]
  -- Both filtered lists hold at most one declaration, so the permutation is an equality.
  have hfiltered := hperm.filter fun d => d.command == command && d.path == path
  have hone : (ds.filter fun d => d.command == command && d.path == path).Pairwise fun _ _ => False := by
    rw [List.pairwise_filter]
    refine (List.pairwise_map.mp hnodup).imp ?_
    intro a b hne ha hb
    exact hne ((hplace a ha).trans (hplace b hb).symm)
  cases hleft : ds.filter fun d => d.command == command && d.path == path with
  | nil =>
    rw [hleft] at hfiltered
    rw [hfiltered.nil_eq]
  | cons d rest =>
    rw [hleft] at hfiltered hone
    cases rest with
    | nil => rw [List.singleton_perm.mp hfiltered]
    | cons d' rest => exact ((List.pairwise_cons.mp hone).1 d' List.mem_cons_self).elim

/-- Declarations at different places give one tree in any order. -/
theorem ofDeclarations_eq_of_perm {ds es : List Declaration} (hperm : ds.Perm es)
    (hnodup : (ds.map Declaration.place).Nodup) : ofDeclarations ds = ofDeclarations es := by
  have hbranch : ∀ command,
      Branch.ofDeclarations (declarationsOf ds command)
        = Branch.ofDeclarations (declarationsOf es command) := by
    intro command
    have hof : (declarationsOf ds command).Perm (declarationsOf es command) := hperm.filter _
    have hpackages : Ordered.sortStrings ((declarationsOf ds command).map (·.binding.package))
        = Ordered.sortStrings ((declarationsOf es command).map (·.binding.package)) :=
      Ordered.sortDistinct_eq_of_mem_iff Ordered.stringBefore_strictOrder
        fun _ => (hof.map _).mem_iff
    have hstarts : Branch.startsOf (declarationsOf ds command)
        = Branch.startsOf (declarationsOf es command) :=
      Ordered.sortDistinct_eq_of_mem_iff pathBefore_strictOrder fun _ => (hof.flatMap_right _).mem_iff
    simp only [Branch.ofDeclarations, hpackages, hstarts,
      firstAt?_declarationsOf_eq_of_perm hperm hnodup]
  have hcommands : Ordered.sortStrings (ds.map (·.command)) = Ordered.sortStrings (es.map (·.command)) :=
    Ordered.sortDistinct_eq_of_mem_iff Ordered.stringBefore_strictOrder fun _ => (hperm.map _).mem_iff
  simp only [ofDeclarations, hcommands, hbranch]

end CommandTree

end CommandDoc
