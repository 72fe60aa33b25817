import JavaDecl.Model.Reference
import Std.Data.ExtHashMap

/-!
# Remembered look-ups

What a type stands for is looked up once if it stands for anything, and otherwise
once for each generation of the library.
-/

namespace JavaDecl

/-- The result of an earlier look-up. -/
inductive Recollection where
  | found (referent : Referent)
  /-- The type stood for nothing in a generation of the library. -/
  | missed (generation : Nat)
deriving DecidableEq, Repr, Inhabited

/-- The results of earlier look-ups, by the places of the types. -/
abbrev Memo := Std.ExtHashMap RefSite Recollection

namespace Memo

/-- What is known without a look-up. -/
def known (memo : Memo) : Known := fun site =>
  match memo[site]? with
  | some (.found referent) => some referent
  | _ => none

/-- The result of a look-up in a generation of the library, if it is remembered. -/
def remembered? (memo : Memo) (generation : Nat) (site : RefSite) : Option (Option Referent) :=
  match memo[site]? with
  | some (.found referent) => some (some referent)
  | some (.missed earlier) => if earlier = generation then some none else none
  | none => none

/-- Remembers the result of a look-up in a generation of the library. -/
def record (memo : Memo) (generation : Nat) (site : RefSite) (result : Option Referent) : Memo :=
  match result with
  | some referent => memo.insert site (.found referent)
  | none => memo.insert site (.missed generation)

end Memo

end JavaDecl
