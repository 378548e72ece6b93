import Mathlib.Data.List.Basic

/-!
# Predicates over values that may be missing

The predicates of a WHERE clause, each on one value, over any type with a
strict order. A missing value makes a predicate unknown, and so does a missing
operand; a row is taken when its predicate is known to hold. `holds` says when
that is. Only `isnull` is known to hold of a missing value.
-/

namespace Infinisql.Lib

inductive Comparison
  | eq
  | ne
  | lt
  | gt
  | lte
  | gte
  deriving DecidableEq, Repr

/-- A predicate with its operands. -/
inductive Predicate (α : Type)
  | compare (c : Comparison) (v : Option α)
  | between (lower upper : Option α)
  | notbetween (lower upper : Option α)
  | isnull
  | isnotnull
  | oneOf (vs : List (Option α))
  | noneOf (vs : List (Option α))
  | matching (p : α → Bool)

variable {α : Type} [DecidableEq α] (lt : α → α → Bool)

namespace Comparison

def holds (a b : α) : Comparison → Bool
  | .eq => a = b
  | .ne => a ≠ b
  | .lt => lt a b
  | .gt => lt b a
  | .lte => !lt b a
  | .gte => !lt a b

end Comparison

namespace Predicate

/-- The predicate is known to hold of the value. -/
def holds : Predicate α → Option α → Bool
  | .isnull, x => x.isNone
  | .isnotnull, x => x.isSome
  | _, none => false
  | .compare c v, some a => v.any fun b => c.holds lt a b
  | .between lower upper, some a =>
      (lower.any fun b => !lt a b) && (upper.any fun b => !lt b a)
  | .notbetween lower upper, some a =>
      (lower.any fun b => lt a b) || (upper.any fun b => lt b a)
  | .oneOf vs, some a => some a ∈ vs
  | .noneOf vs, some a => none ∉ vs ∧ some a ∉ vs
  | .matching p, some a => p a

theorem holds_none {p : Predicate α} (hp : p ≠ .isnull) :
    p.holds lt none = false := by
  cases p with
  | isnull => exact absurd rfl hp
  | _ => rfl

end Predicate

end Infinisql.Lib
