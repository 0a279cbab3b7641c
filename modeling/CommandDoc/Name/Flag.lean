import CommandDoc.Ordered
import CommandDoc.Text.Blank

/-!
# Flag names

The names of a flag are kept without dashes and in one canonical order, longest first.

Main definitions:

- `bareFlag` takes a written flag apart from its dashes.
- `canonicalFlags` is the canonical list of a collection of written flags.
- `displayFlag` writes a name with its dashes.
-/

namespace CommandDoc

/-- The name of a written flag: without blanks around it and dashes in front. -/
def bareFlag (flag : String) : String :=
  String.ofList ((Text.trim flag.toList).dropWhile (· == '-'))

/-- The canonical order: longer names first, names of one length by code points. -/
def flagBefore (a b : String) : Bool :=
  if a.length == b.length then Ordered.stringBefore a b else b.length < a.length

/-- The distinct names of written flags in canonical order. -/
def canonicalFlags (flags : List String) : List String :=
  Ordered.sortDistinct flagBefore ((flags.map bareFlag).filter (· ≠ ""))

/-- A name as it is written on a command line: one dash before a single character, else two. -/
def displayFlag (name : String) : String :=
  if name.length == 1 then "-" ++ name else "--" ++ name

/-- The canonical order is a strict total order. -/
theorem flagBefore_strictOrder : Ordered.StrictOrder flagBefore where
  irrefl a := by simp [flagBefore, Ordered.stringBefore_strictOrder.irrefl]
  trans a b c := by
    simp only [flagBefore]
    split <;> split <;> split <;> simp_all
    · exact Ordered.stringBefore_strictOrder.trans a b c
    all_goals omega
  connected a b := by
    simp only [flagBefore]
    split <;> split <;> simp_all
    · exact Ordered.stringBefore_strictOrder.connected a b
    all_goals omega

end CommandDoc
