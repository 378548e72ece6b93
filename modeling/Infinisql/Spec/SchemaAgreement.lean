import Infinisql.Ref.Ddl

/-!
# What the actors are to agree on

Once no message is on its way, every transaction agent and every engine is to
have the tables `UserSchemaMgr` has, with the same types, lengths and index
types under the same field numbers, and a column's name is to lead
`UserSchemaMgr` and every transaction agent to the number that has the column.
Engines go by numbers only.

`UserSchemaMgr` hands out the field numbers, and nobody uses them: each actor
counts for itself. So a column has to arrive when its number is the next.
-/

namespace Infinisql.Spec.Ddl

open Infinisql.Ref (Fieldtype Indextype)
open Infinisql.Ref.Ddl

/-- What an engine needs of a column. -/
def shape (c : Column) : Fieldtype × Int × Indextype :=
  (c.type, c.length, c.indextype)

def tableAt (s : State) (a : Actor) (domainid tid : Int) : Option Table :=
  (s.schemata a domainid).bind fun schema => schema.tables tid

def fieldNameAt (s : State) (a : Actor) (domainid tid : Int) (name : String) :
    Option Int :=
  (s.schemata a domainid).bind fun schema => schema.fieldNameToId tid name

def Topology.holdsSchemata (top : Topology) (a : Actor) : Bool :=
  top.isTransactionAgent a || top.isEngine a

/-- No message is on its way. -/
def Quiet (s : State) : Prop := ∀ a b, s.chan a b = []

structure Agree (top : Topology) (s : State) : Prop where
  fields : ∀ a, Topology.holdsSchemata top a → ∀ domainid tid,
    (tableAt s a domainid tid).map (fun t => t.fields.map shape) =
      (tableAt s .userSchemaMgr domainid tid).map fun t => t.fields.map shape
  names : ∀ a, a = .userSchemaMgr ∨ top.isTransactionAgent a →
    ∀ domainid tid t, tableAt s .userSchemaMgr domainid tid = some t →
    ∀ (i : Nat) c, t.fields[i]? = some c →
      fieldNameAt s a domainid tid c.name = some (i : Int)

/-- The receiver has got the columns before this one, and no more. -/
def NextColumn (s : State) (a : Actor) (m : UserSchema) : Prop :=
  ∃ t, tableAt s a m.domainid m.tableid = some t ∧
    (t.fields.length : Int) = m.fieldid

/-- A request comes from a domain that has a schema; a column is the next of
its table; and a name that is empty, as it is after a refused request, does
not lead away from a column without a name. -/
def DeliversInOrder (s : State) : Action → Prop
  | .start _ domainid _ => (s.schemata .userSchemaMgr domainid).isSome
  | .deliver snd rcv _ =>
      match (s.chan snd rcv).head? with
      | some (.relay .addcolumn m) => NextColumn s rcv m
      | some (.fieldname m) => m.argstring = "" → ∀ i,
          fieldNameAt s .userSchemaMgr m.domainid m.tableid "" = some i →
          i = m.fieldid
      | _ => True

end Infinisql.Spec.Ddl
