import CommandDoc.Signature.FunctionRef

/-!
# What comments say about a parameter

A parameter can be described in up to three places. Each of them gives a candidate, a record in which
most fields are usually not set; laying candidates over each other by priority gives what is known.

Main definitions:

- `Traits`: what can be said about a parameter besides its name and type.
- `Candidate`: traits and aliases, as one comment gives them.
- `Candidate.overlay` and `Candidate.merge`.
-/

namespace CommandDoc

/-! ## Records -/

/-- What can be said about a parameter besides its name and type. -/
structure Traits where
  /-- Names of the flag, without dashes. -/
  flags : List String := []
  /-- The value taken when none is given. -/
  defaultValue : Option String := none
  /-- The environment variable that gives the value. -/
  envVar : Option String := none
  /-- The description shown to the user. -/
  description : Option String := none
  /-- Whether a value must be given. -/
  required : Bool := false
  /-- Whether subcommands see the parameter too. -/
  inherited : Bool := false
  /-- Whether the parameter is declared by a command above. -/
  fromParent : Bool := false
  /-- Whether the parameter is an argument and no flag. -/
  positional : Bool := false
  /-- The place among the arguments, from 1 on. -/
  position : Option UInt32 := none
  /-- Whether the parameter takes any number of arguments. -/
  vararg : Bool := false
  /-- The least number of arguments taken; zero for no bound. -/
  varMin : UInt32 := 0
  /-- The greatest number of arguments taken; zero for no bound. -/
  varMax : UInt32 := 0
  /-- The function that reads the value. -/
  parser : Option FunctionRef := none
  /-- The function that makes a value. -/
  generator : Option FunctionRef := none
  deriving Repr, DecidableEq

/-- What one comment says about a parameter. -/
structure Candidate extends Traits where
  /-- Further names of the flag. -/
  aliases : List String := []
  deriving Repr, DecidableEq

/-! ## Laying one candidate over another -/

/-- The list `top`, or `base` if `top` is empty. -/
def overList {α : Type} (base top : List α) : List α :=
  if top.isEmpty then base else top

/-- The number `top`, or `base` if `top` is zero. -/
def overNumber (base top : UInt32) : UInt32 :=
  if top == 0 then base else top

/-- An empty list lets the other one through. -/
@[simp] theorem overList_nil {α : Type} (base : List α) : overList base [] = base := rfl

/-- Over an empty list every list stays. -/
@[simp] theorem nil_overList {α : Type} (top : List α) : overList [] top = top := by
  cases top <;> rfl

/-- The last non-empty list wins, however the lists are grouped. -/
theorem overList_assoc {α : Type} (a b c : List α) :
    overList (overList a b) c = overList a (overList b c) := by
  cases c with
  | nil => rfl
  | cons x xs => cases b <;> rfl

/-- Zero lets the other number through. -/
@[simp] theorem overNumber_zero (base : UInt32) : overNumber base 0 = base := rfl

/-- Over zero every number stays. -/
@[simp] theorem zero_overNumber (top : UInt32) : overNumber 0 top = top := by
  simp only [overNumber]
  split <;> simp_all

/-- The last number that is not zero wins, however the numbers are grouped. -/
theorem overNumber_assoc (a b c : UInt32) :
    overNumber (overNumber a b) c = overNumber a (overNumber b c) := by
  simp only [overNumber]
  split <;> simp_all

namespace Candidate

/-- Lay `top` over `base`: every field that `top` sets wins. A field is set if it is not empty, not false,
not zero and not absent. -/
def overlay (base top : Candidate) : Candidate where
  flags := overList base.flags top.flags
  aliases := overList base.aliases top.aliases
  defaultValue := top.defaultValue.or base.defaultValue
  envVar := top.envVar.or base.envVar
  description := top.description.or base.description
  required := top.required || base.required
  inherited := top.inherited || base.inherited
  fromParent := top.fromParent || base.fromParent
  positional := top.positional || base.positional
  position := top.position.or base.position
  vararg := top.vararg || base.vararg
  varMin := overNumber base.varMin top.varMin
  varMax := overNumber base.varMax top.varMax
  parser := top.parser.or base.parser
  generator := top.generator.or base.generator

/-- Nothing laid over a candidate leaves it as it is. -/
theorem overlay_empty (base : Candidate) : overlay base {} = base := by
  simp [overlay]

/-- A candidate laid over nothing is itself. -/
theorem empty_overlay (top : Candidate) : overlay {} top = top := by
  simp [overlay]

/-- Laying candidates over each other is associative. -/
theorem overlay_assoc (a b c : Candidate) : overlay (overlay a b) c = overlay a (overlay b c) := by
  simp only [overlay, overList_assoc, overNumber_assoc, Option.or_assoc, Bool.or_assoc]

end Candidate

/-! ## Merging by priority -/

/-- Where a candidate was found. -/
inductive CandidateSource where
  /-- The comment on the line before the parameter. -/
  | precedingComment
  /-- The comment behind the parameter. -/
  | inlineComment
  /-- The doc comment of the function. -/
  | docComment
  deriving Repr, DecidableEq

/-- Sources with a higher rank win. -/
def CandidateSource.rank : CandidateSource → Nat
  | precedingComment => 0
  | inlineComment => 1
  | docComment => 2

namespace Candidate

/-- The candidates of one source, in the order given. -/
def ofSource (source : CandidateSource) (found : List (CandidateSource × Candidate)) : List Candidate :=
  (found.filter (·.1 == source)).map (·.2)

/-- Candidates from the lowest to the highest priority; those of one source keep their order. -/
def byPriority (found : List (CandidateSource × Candidate)) : List Candidate :=
  ofSource .precedingComment found ++ ofSource .inlineComment found ++ ofSource .docComment found

/-- Lay candidates over each other by priority. -/
def merge (found : List (CandidateSource × Candidate)) : Candidate :=
  (byPriority found).foldl overlay {}

end Candidate

end CommandDoc
