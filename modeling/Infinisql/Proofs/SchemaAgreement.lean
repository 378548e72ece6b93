import Infinisql.Lib.Run
import Infinisql.Spec.SchemaAgreement

/-!
# When the actors agree on a schema

Every message on its way says something true about the schema of
`UserSchemaMgr`, and stays true, as that schema only grows. What an actor
does not have yet is on its way to it: a table or column is in a reply of
`UserSchemaMgr`, which the agent will relay to everybody, or in a message an
agent has relayed. With nothing on its way, nothing is missing.

That an agent will relay the reply rests on the operation it belongs to. It
stays in the state `usm` from the request until the reply, and no other
message under way carries its number: this is what `Valid` says of the
messages and `operationsNodup` of the two channels between an agent and
`UserSchemaMgr`.

A column is added in its place if it arrives when it is the next. Then the
columns of a receiver are the beginning of those of `UserSchemaMgr`.
-/

namespace Infinisql.Proofs

open Infinisql.Lib
open Infinisql.Ref (Fieldtype Indextype Status)
open Infinisql.Ref.Ddl Infinisql.Spec.Ddl

/-! ## What a request does to the schema it is about -/

/-- The reply to a request, and the schema before and after it. -/
inductive RequestHandled (builtincmd : Builtincmd) (schema schema' : Schema) :
    Status → UserSchema → Prop
  | refused {m : UserSchema} (hname : m.argstring = "")
      (htables : schema'.tables = schema.tables)
      (hnames : schema'.fieldNameToId = schema.fieldNameToId) :
      RequestHandled builtincmd schema schema' .notOk m
  | created {m : UserSchema} (hcmd : builtincmd = .createtable)
      (hnew : schema.tables m.tableid = none)
      (htables : schema'.tables =
        Function.update schema.tables m.tableid (some {}))
      (hnames : schema'.fieldNameToId = schema.fieldNameToId) :
      RequestHandled builtincmd schema schema' .ok m
  | added {m : UserSchema} {t : Table} (hcmd : builtincmd = .addcolumn)
      (ht : schema.tables m.tableid = some t)
      (hnew : t.columnaNameToFieldMap m.argstring = none)
      (hfieldid : m.fieldid = t.fields.length)
      (htables : schema'.tables = Function.update schema.tables m.tableid
        (some (t.addfield m.fieldtype m.fieldlen m.argstring
          m.indextype).2))
      (hnames : schema'.fieldNameToId = fun tid name =>
        if tid = m.tableid ∧ name = m.argstring then some m.fieldid
        else schema.fieldNameToId tid name) :
      RequestHandled builtincmd schema schema' .ok m

theorem length_addfield (t : Table) (type : Fieldtype) (length : Int)
    (name : String) (indextype : Indextype) :
    (t.addfield type length name indextype).1 = t.fields.length := by
  unfold Table.addfield
  simp only [List.length_append, List.length_singleton]
  omega

theorem usm_createtable_handled {schemata schemata' : DomainidToSchemaMap}
    {domainid : Int} {schema : Schema} {name : String} {msg m : UserSchema}
    {status : Status} (hschema : schemata domainid = some schema)
    (hmsg : msg.argstring = "")
    (h : UserSchemaMgr.createtable schemata domainid name msg =
      (status, m, schemata')) :
    m.domainid = msg.domainid ∧ ∃ schema',
      schemata' = Function.update schemata domainid (some schema') ∧
      RequestHandled .createtable schema schema' status m := by
  unfold UserSchemaMgr.createtable at h
  rw [hschema] at h
  have hsame : schemata = Function.update schemata domainid (some schema) := by
    rw [← hschema, Function.update_eq_self]
  dsimp only at h
  split at h
  · cases h
    exact ⟨rfl, schema, hsame, .refused hmsg rfl rfl⟩
  · unfold Schema.createTable Schema.getnexttableid at h
    dsimp only at h
    cases htable : schema.tables (schema.nexttableid + 1) with
    | some t =>
        rw [htable] at h
        cases h
        exact ⟨rfl, _, rfl, .refused hmsg rfl rfl⟩
    | none =>
        rw [htable] at h
        cases h
        exact ⟨rfl, _, rfl, .created rfl htable rfl rfl⟩

theorem usm_addcolumn_handled {schemata schemata' : DomainidToSchemaMap}
    {domainid tid len : Int} {schema : Schema}
    {stringtype name stringidxtype : String} {msg m : UserSchema}
    {status : Status} (hschema : schemata domainid = some schema)
    (hmsg : msg.argstring = "")
    (h : UserSchemaMgr.addcolumn schemata domainid tid stringtype len name
      stringidxtype msg = (status, m, schemata')) :
    m.domainid = msg.domainid ∧ ∃ schema',
      schemata' = Function.update schemata domainid (some schema') ∧
      RequestHandled .addcolumn schema schema' status m := by
  have hsame : schemata = Function.update schemata domainid (some schema) := by
    rw [← hschema, Function.update_eq_self]
  have hrefused : ∀ {status' m' schemata''},
      ((Status.notOk, msg, schemata) : Status × UserSchema × _) =
        (status', m', schemata'') →
      m'.domainid = msg.domainid ∧ ∃ schema',
        schemata'' = Function.update schemata domainid (some schema') ∧
        RequestHandled .addcolumn schema schema' status' m' := by
    intro status' m' schemata'' heq
    cases heq
    exact ⟨rfl, schema, hsame, .refused hmsg rfl rfl⟩
  unfold UserSchemaMgr.addcolumn at h
  rw [hschema] at h
  cases htype : fieldTypeMap stringtype with
  | none =>
      rw [htype] at h
      exact hrefused h
  | some type =>
      cases hidxtype : indexTypeMap stringidxtype with
      | none =>
          rw [htype, hidxtype] at h
          exact hrefused h
      | some idxtype =>
          cases htable : schema.tables tid with
          | none =>
              rw [htype, hidxtype] at h
              dsimp only at h
              rw [htable] at h
              exact hrefused h
          | some t =>
              rw [htype, hidxtype] at h
              dsimp only at h
              rw [htable] at h
              dsimp only at h
              split at h
              · exact hrefused h
              · next hfresh =>
                  have hnew : t.columnaNameToFieldMap name = none :=
                    Option.not_isSome_iff_eq_none.mp hfresh
                  cases h
                  exact ⟨rfl, _, rfl,
                    .added rfl htable hnew (length_addfield ..) rfl rfl⟩

theorem handle_handled {schemata schemata' : DomainidToSchemaMap}
    {domainid : Int} {schema : Schema} {req : Request}
    {uninit m : UserSchema} {status : Status}
    (hschema : schemata domainid = some schema)
    (h : UserSchemaMgr.handle schemata domainid req uninit =
      (status, m, schemata')) :
    m.domainid = domainid ∧ ∃ schema',
      schemata' = Function.update schemata domainid (some schema') ∧
      RequestHandled req.builtincmd schema schema' status m := by
  cases req with
  | createtable name => exact usm_createtable_handled hschema rfl h
  | addcolumn tid stringtype len name stringidxtype =>
      exact usm_addcolumn_handled hschema rfl h

/-! ## The schema of one actor changes in one domain -/

theorem tableAt_of_eq {s s' : State} {a b : Actor} {domainid : Int}
    (h : s'.schemata b domainid = s.schemata a domainid) (tid : Int) :
    tableAt s' b domainid tid = tableAt s a domainid tid := by
  unfold tableAt
  rw [h]

theorem fieldNameAt_of_eq {s s' : State} {a b : Actor} {domainid : Int}
    (h : s'.schemata b domainid = s.schemata a domainid) (tid : Int)
    (name : String) :
    fieldNameAt s' b domainid tid name = fieldNameAt s a domainid tid name := by
  unfold fieldNameAt
  rw [h]

/-- The only difference between the schemata of the two states. -/
structure ChangesAt (s s' : State) (a : Actor) (domainid : Int)
    (schema schema' : Schema) : Prop where
  before : s.schemata a domainid = some schema
  after : s'.schemata a domainid = some schema'
  other : ∀ b d, ¬ (b = a ∧ d = domainid) → s'.schemata b d = s.schemata b d

namespace ChangesAt

variable {s s' : State} {a : Actor} {domainid : Int} {schema schema' : Schema}

theorem of_update (hbefore : s.schemata a domainid = some schema)
    (h : s'.schemata = Function.update s.schemata a
      (Function.update (s.schemata a) domainid (some schema'))) :
    ChangesAt s s' a domainid schema schema' where
  before := hbefore
  after := by rw [h, Function.update_self, Function.update_self]
  other b d hne := by
    rw [h]
    by_cases hb : b = a
    · subst hb
      rw [Function.update_self, Function.update_of_ne]
      exact fun hd => hne ⟨rfl, hd⟩
    · rw [Function.update_of_ne hb]

theorem domains (h : ChangesAt s s' a domainid schema schema') (b : Actor)
    (d : Int) : (s'.schemata b d).isSome = (s.schemata b d).isSome := by
  by_cases hb : b = a ∧ d = domainid
  · obtain ⟨rfl, rfl⟩ := hb
    rw [h.before, h.after]
    rfl
  · rw [h.other b d hb]

theorem tableAt_before (h : ChangesAt s s' a domainid schema schema')
    (tid : Int) : tableAt s a domainid tid = schema.tables tid := by
  rw [tableAt, h.before, Option.bind_some]

theorem tableAt_after (h : ChangesAt s s' a domainid schema schema')
    (tid : Int) : tableAt s' a domainid tid = schema'.tables tid := by
  rw [tableAt, h.after, Option.bind_some]

theorem fieldNameAt_before (h : ChangesAt s s' a domainid schema schema')
    (tid : Int) (name : String) :
    fieldNameAt s a domainid tid name = schema.fieldNameToId tid name := by
  rw [fieldNameAt, h.before, Option.bind_some]

theorem fieldNameAt_after (h : ChangesAt s s' a domainid schema schema')
    (tid : Int) (name : String) :
    fieldNameAt s' a domainid tid name = schema'.fieldNameToId tid name := by
  rw [fieldNameAt, h.after, Option.bind_some]

theorem tableAt_other (h : ChangesAt s s' a domainid schema schema')
    {b : Actor} {d : Int} (hne : ¬ (b = a ∧ d = domainid)) (tid : Int) :
    tableAt s' b d tid = tableAt s b d tid :=
  tableAt_of_eq (h.other b d hne) tid

theorem fieldNameAt_other (h : ChangesAt s s' a domainid schema schema')
    {b : Actor} {d : Int} (hne : ¬ (b = a ∧ d = domainid)) (tid : Int)
    (name : String) :
    fieldNameAt s' b d tid name = fieldNameAt s b d tid name :=
  fieldNameAt_of_eq (h.other b d hne) tid name

end ChangesAt

/-! ## What messages say -/

theorem getElem?_of_prefix {α : Type} {xs ys : List α} {i : Nat} {x : α}
    (h : xs <+: ys) (hx : xs[i]? = some x) : ys[i]? = some x := by
  obtain ⟨zs, rfl⟩ := h
  rw [List.getElem?_append_left (List.getElem?_eq_some_iff.mp hx).1]
  exact hx

/-- `UserSchemaMgr` has the column under this number and name. -/
def NameTrue (s : State) (m : UserSchema) : Prop :=
  ∃ t i c, tableAt s .userSchemaMgr m.domainid m.tableid = some t ∧
    m.fieldid = (i : Nat) ∧ t.fields[i]? = some c ∧ c.name = m.argstring

/-- It has what was created. -/
def ChangeTrue (s : State) : Builtincmd → UserSchema → Prop
  | .createtable, m =>
      (tableAt s .userSchemaMgr m.domainid m.tableid).isSome
  | .addcolumn, m =>
      ∃ t i, tableAt s .userSchemaMgr m.domainid m.tableid = some t ∧
        m.fieldid = (i : Nat) ∧
        t.fields[i]? =
          some ⟨m.fieldtype, m.fieldlen, m.indextype, m.argstring⟩

theorem ChangeTrue.nameTrue {s : State} {m : UserSchema}
    (h : ChangeTrue s .addcolumn m) : NameTrue s m := by
  obtain ⟨t, i, ht, hi, hc⟩ := h
  exact ⟨t, i, _, ht, hi, hc, rfl⟩

/-- `UserSchemaMgr` is through with the operation. -/
def OperationSettled (s : State) (n : Nat) (operationid : Int) : Prop :=
  operationid ≤ s.operationidcounter n ∧
    ∀ o, s.pendingOperations n operationid = some o → o.state = .tasengines

/-- The operation has this number and waits for `UserSchemaMgr`. -/
def Asked (s : State) (n : Nat) (operationid domainid : Int)
    (builtincmd : Builtincmd) : Prop :=
  ∃ o, s.pendingOperations n operationid = some o ∧ o.state = .usm ∧
    o.domainid = domainid ∧ o.builtincmd = builtincmd

/-- The messages there can be from one actor to another. -/
inductive Valid (s : State) : Actor → Actor → Message → Prop
  | request {n : Nat} {operationid domainid : Int} {req : Request}
      (hdomain : (s.schemata .userSchemaMgr domainid).isSome)
      (hasked : Asked s n operationid domainid req.builtincmd) :
      Valid s (.transactionAgent n) .userSchemaMgr
        (.request operationid domainid req)
  | answer {n : Nat} {m : UserSchema} {builtincmd : Builtincmd}
      (hdomain : (s.schemata .userSchemaMgr m.domainid).isSome)
      (hasked : Asked s n m.operationid m.domainid builtincmd)
      (hok : m.status = .ok → ChangeTrue s builtincmd m)
      (hrefused : m.status = .notOk → m.argstring = "") :
      Valid s .userSchemaMgr (.transactionAgent n) (.schemareply m)
  | relay {n : Nat} {r : Actor} {builtincmd : Builtincmd} {m : UserSchema}
      (hr : r ≠ .userSchemaMgr) (htrue : ChangeTrue s builtincmd m)
      (hsettled : OperationSettled s n m.operationid) :
      Valid s (.transactionAgent n) r (.relay builtincmd m)
  | reply {n : Nat} {r : Actor} {m : UserSchema}
      (hr : r ≠ .userSchemaMgr)
      (hsettled : OperationSettled s n m.operationid) :
      Valid s r (.transactionAgent n) (.schemareply m)
  | tablename {n k : Nat} {m : UserSchema}
      (hdomain : (s.schemata .userSchemaMgr m.domainid).isSome) :
      Valid s (.transactionAgent n) (.transactionAgent k) (.tablename m)
  | fieldname {n k : Nat} {m : UserSchema}
      (hdomain : (s.schemata .userSchemaMgr m.domainid).isSome)
      (hname : m.argstring = "" ∨ NameTrue s m) :
      Valid s (.transactionAgent n) (.transactionAgent k) (.fieldname m)

def Message.operationid : Message → Int
  | .request operationid .. => operationid
  | .relay _ m => m.operationid
  | .schemareply m => m.operationid
  | .tablename m => m.operationid
  | .fieldname m => m.operationid

/-- The operations between the agent and `UserSchemaMgr`. -/
def asked (chan : Channels Actor Message) (n : Nat) : List Int :=
  (chan (.transactionAgent n) .userSchemaMgr).map Message.operationid ++
    (chan .userSchemaMgr (.transactionAgent n)).map Message.operationid

/-- What of the state only grows, and what else a message on its way relies
on. -/
structure Later (s s' : State) : Prop where
  domains : ∀ a d, (s'.schemata a d).isSome = (s.schemata a d).isSome
  grows : ∀ d tid t, tableAt s .userSchemaMgr d tid = some t →
    ∃ t', tableAt s' .userSchemaMgr d tid = some t' ∧ t.fields <+: t'.fields
  counter : ∀ n, s.operationidcounter n ≤ s'.operationidcounter n
  kept : ∀ n operationid o, s.pendingOperations n operationid = some o →
    o.state = .usm → operationid ∈ asked s'.chan n →
    s'.pendingOperations n operationid = some o
  old : ∀ n operationid o, operationid ≤ s.operationidcounter n →
    s'.pendingOperations n operationid = some o → o.state = .usm →
    s.pendingOperations n operationid = some o

namespace Later

variable {s s' : State}

theorem isSome_domain (h : Later s s') {a : Actor} {d : Int}
    (hd : (s.schemata a d).isSome) : (s'.schemata a d).isSome := by
  rw [h.domains]
  exact hd

theorem nameTrue (h : Later s s') {m : UserSchema} (hm : NameTrue s m) :
    NameTrue s' m := by
  obtain ⟨t, i, c, ht, hi, hc, hname⟩ := hm
  obtain ⟨t', ht', hpre⟩ := h.grows _ _ _ ht
  exact ⟨t', i, c, ht', hi, getElem?_of_prefix hpre hc, hname⟩

theorem changeTrue (h : Later s s') {builtincmd : Builtincmd} {m : UserSchema}
    (hm : ChangeTrue s builtincmd m) : ChangeTrue s' builtincmd m := by
  cases builtincmd with
  | createtable =>
      obtain ⟨t, ht⟩ := Option.isSome_iff_exists.mp hm
      obtain ⟨t', ht', _⟩ := h.grows _ _ _ ht
      exact Option.isSome_iff_exists.mpr ⟨t', ht'⟩
  | addcolumn =>
      obtain ⟨t, i, ht, hi, hc⟩ := hm
      obtain ⟨t', ht', hpre⟩ := h.grows _ _ _ ht
      exact ⟨t', i, ht', hi, getElem?_of_prefix hpre hc⟩

theorem settled (h : Later s s') {n : Nat} {operationid : Int}
    (hm : OperationSettled s n operationid) :
    OperationSettled s' n operationid := by
  refine ⟨le_trans hm.1 (h.counter n), fun o ho => ?_⟩
  cases hstate : o.state with
  | tasengines => rfl
  | usm =>
      have hold := hm.2 o (h.old n operationid o hm.1 ho hstate)
      rw [hstate] at hold
      cases hold

theorem asked (h : Later s s') {n : Nat} {operationid domainid : Int}
    {builtincmd : Builtincmd}
    (hm : Asked s n operationid domainid builtincmd)
    (hmem : operationid ∈ Proofs.asked s'.chan n) :
    Asked s' n operationid domainid builtincmd := by
  obtain ⟨o, ho, hstate, hrest⟩ := hm
  exact ⟨o, h.kept n operationid o ho hstate hmem, hstate, hrest⟩

end Later

theorem mem_asked_of_request {chan : Channels Actor Message} {n : Nat}
    {msg : Message} (h : msg ∈ chan (.transactionAgent n) .userSchemaMgr) :
    Message.operationid msg ∈ asked chan n :=
  List.mem_append_left _ (List.mem_map_of_mem h)

theorem mem_asked_of_answer {chan : Channels Actor Message} {n : Nat}
    {msg : Message} (h : msg ∈ chan .userSchemaMgr (.transactionAgent n)) :
    Message.operationid msg ∈ asked chan n :=
  List.mem_append_right _ (List.mem_map_of_mem h)

/-- A message that stays on its way stays valid. -/
theorem Valid.later {s s' : State} {a b : Actor} {msg : Message}
    (hv : Valid s a b msg) (h : Later s s') (hmem : msg ∈ s'.chan a b) :
    Valid s' a b msg := by
  cases hv with
  | request hdomain hasked =>
      exact .request (h.isSome_domain hdomain)
        (h.asked hasked (mem_asked_of_request hmem))
  | answer hdomain hasked hok hrefused =>
      exact .answer (h.isSome_domain hdomain)
        (h.asked hasked (mem_asked_of_answer hmem))
        (fun hs => h.changeTrue (hok hs)) hrefused
  | relay hr htrue hsettled =>
      exact .relay hr (h.changeTrue htrue) (h.settled hsettled)
  | reply hr hsettled => exact .reply hr (h.settled hsettled)
  | tablename hdomain => exact .tablename (h.isSome_domain hdomain)
  | fieldname hdomain hname =>
      exact .fieldname (h.isSome_domain hdomain) (hname.imp id h.nameTrue)

/-! ## What is still to come -/

/-- What a message is about, as far as all messages say it. -/
structure Subject where
  domainid : Int
  tableid : Int
  fieldid : Int
  argstring : String

def subject (m : UserSchema) : Subject :=
  ⟨m.domainid, m.tableid, m.fieldid, m.argstring⟩

/-- On its way to the receiver, or in a reply that will be relayed to it. -/
def Owed (s : State) (r : Actor) (kind : UserSchema → Message)
    (builtincmd : Builtincmd) (about : Subject → Prop) : Prop :=
  (∃ x m, kind m ∈ s.chan x r ∧ about (subject m)) ∨
    ∃ n m, .schemareply m ∈ s.chan .userSchemaMgr (.transactionAgent n) ∧
      m.status = .ok ∧ Asked s n m.operationid m.domainid builtincmd ∧
      about (subject m)

def aboutTable (d tid : Int) (m : Subject) : Prop :=
  m.domainid = d ∧ m.tableid = tid

def aboutColumn (d tid i : Int) (m : Subject) : Prop :=
  aboutTable d tid m ∧ m.fieldid = i

def aboutName (d tid i : Int) (name : String) (m : Subject) : Prop :=
  aboutColumn d tid i m ∧ m.argstring = name

/-- What a receiver has is the beginning of what `UserSchemaMgr` has, and
the rest is to come. -/
structure HeldSchema (s : State) (r : Actor) : Prop where
  only : ∀ d tid t', tableAt s r d tid = some t' →
    ∃ t, tableAt s .userSchemaMgr d tid = some t ∧
      t'.fields.map shape <+: t.fields.map shape
  tables : ∀ d tid t, tableAt s .userSchemaMgr d tid = some t →
    (tableAt s r d tid).isSome ∨
      Owed s r (.relay .createtable) .createtable (aboutTable d tid)
  columns : ∀ d tid t, tableAt s .userSchemaMgr d tid = some t →
    ∀ i : Nat, i < t.fields.length →
      (∃ t', tableAt s r d tid = some t' ∧ i < t'.fields.length) ∨
        Owed s r (.relay .addcolumn) .addcolumn (aboutColumn d tid i)

/-- So are the names of the columns. -/
def Named (s : State) (a : Actor) : Prop :=
  ∀ d tid t, tableAt s .userSchemaMgr d tid = some t →
    ∀ (i : Nat) c, t.fields[i]? = some c →
      fieldNameAt s a d tid c.name = some (i : Int) ∨
        Owed s a .fieldname .addcolumn (aboutName d tid i c.name)

/-- `UserSchemaMgr` finds its columns by their names. -/
def Numbered (s : State) : Prop :=
  ∀ d tid t, tableAt s .userSchemaMgr d tid = some t →
    ∀ (i : Nat) c, t.fields[i]? = some c →
      t.columnaNameToFieldMap c.name = some (i : Int) ∧
        fieldNameAt s .userSchemaMgr d tid c.name = some (i : Int)

structure SchemaInvariant (top : Topology) (s : State) : Prop where
  domains : ∀ a d,
    (s.schemata a d).isSome = (s.schemata .userSchemaMgr d).isSome
  numbered : Numbered s
  valid : ∀ a b, ∀ msg ∈ s.chan a b, Valid s a b msg
  operationsNodup : ∀ n, (asked s.chan n).Nodup
  counted : ∀ n operationid o,
    s.pendingOperations n operationid = some o →
      operationid ≤ s.operationidcounter n
  held : ∀ r, Topology.holdsSchemata top r → HeldSchema s r
  named : ∀ a, top.isTransactionAgent a → Named s a

/-- All messages but one that is taken off its channel stay on their way. -/
def KeepsMessages (s s' : State) (a b : Actor) (msg : Message) : Prop :=
  ∀ x y msg', msg' ∈ s.chan x y →
    (x = a ∧ y = b ∧ msg' = msg) ∨ msg' ∈ s'.chan x y

/-- What was to come still is, or has come now: it is in the message that was
taken off. -/
theorem Owed.later {s s' : State} {a b r : Actor} {msg : Message}
    {kind : UserSchema → Message} {builtincmd : Builtincmd}
    {about : Subject → Prop} (hlater : Later s s')
    (hkeeps : KeepsMessages s s' a b msg)
    (h : Owed s r kind builtincmd about) :
    Owed s' r kind builtincmd about ∨
      (b = r ∧ ∃ m, msg = kind m ∧ about (subject m)) ∨
      (a = .userSchemaMgr ∧ ∃ n m, b = .transactionAgent n ∧
        msg = .schemareply m ∧ m.status = .ok ∧
        Asked s n m.operationid m.domainid builtincmd ∧
        about (subject m)) := by
  rcases h with ⟨x, m, hmem, hm⟩ | ⟨n, m, hmem, hok, hasked, hm⟩
  · rcases hkeeps x r _ hmem with ⟨_, hr, hmsg⟩ | hmem'
    · exact .inr (.inl ⟨hr.symm, m, hmsg.symm, hm⟩)
    · exact .inl (.inl ⟨x, m, hmem', hm⟩)
  · rcases hkeeps _ _ _ hmem with ⟨ha, hb, hmsg⟩ | hmem'
    · exact .inr (.inr ⟨ha.symm, n, m, hb.symm, hmsg.symm, hok, hasked, hm⟩)
    · refine .inl (.inr ⟨n, m, hmem', hok, ?_, hm⟩)
      exact hlater.asked hasked (mem_asked_of_answer hmem')

/-- A message that is not from `UserSchemaMgr` and of another kind, or for
another receiver, brings nothing. -/
theorem Owed.later_of_not {s s' : State} {a b r : Actor} {msg : Message}
    {kind : UserSchema → Message} {builtincmd : Builtincmd}
    {about : Subject → Prop} (hlater : Later s s')
    (hkeeps : KeepsMessages s s' a b msg) (ha : a ≠ .userSchemaMgr)
    (hother : b = r → ∀ m, msg ≠ kind m)
    (h : Owed s r kind builtincmd about) :
    Owed s' r kind builtincmd about := by
  rcases h.later hlater hkeeps with h | ⟨hb, m, hmsg, _⟩ | ⟨hu, _⟩
  · exact h
  · exact absurd hmsg (hother hb m)
  · exact absurd hu ha

theorem HeldSchema.of_owed {s s' : State} {r : Actor}
    (hr : ∀ d tid, tableAt s' r d tid = tableAt s r d tid)
    (husm : ∀ d tid, tableAt s' .userSchemaMgr d tid =
      tableAt s .userSchemaMgr d tid)
    (howed : ∀ builtincmd about,
      Owed s r (.relay builtincmd) builtincmd about →
      Owed s' r (.relay builtincmd) builtincmd about)
    (h : HeldSchema s r) : HeldSchema s' r where
  only d tid t' ht' := by
    rw [hr] at ht'
    rw [husm]
    exact h.only d tid t' ht'
  tables d tid t ht := by
    rw [husm] at ht
    rw [hr]
    exact (h.tables d tid t ht).imp id (howed _ _)
  columns d tid t ht i hi := by
    rw [husm] at ht
    rw [hr]
    exact (h.columns d tid t ht i hi).imp id (howed _ _)

theorem Named.of_owed {s s' : State} {a : Actor}
    (ha : ∀ d tid name, fieldNameAt s' a d tid name =
      fieldNameAt s a d tid name)
    (husm : ∀ d tid, tableAt s' .userSchemaMgr d tid =
      tableAt s .userSchemaMgr d tid)
    (howed : ∀ about, Owed s a .fieldname .addcolumn about →
      Owed s' a .fieldname .addcolumn about)
    (h : Named s a) : Named s' a := by
  intro d tid t ht i c hc
  rw [husm] at ht
  rw [ha]
  exact (h d tid t ht i c hc).imp id (howed _)

/-- With nothing on its way, nothing is missing. -/
theorem SchemaInvariant.agree {top : Topology} {s : State}
    (h : SchemaInvariant top s) (hquiet : Spec.Ddl.Quiet s) : Agree top s := by
  have hnothing : ∀ {r kind builtincmd about},
      ¬ Owed s r kind builtincmd about := by
    intro r kind builtincmd about howed
    rcases howed with ⟨x, m, hmem, _⟩ | ⟨n, m, hmem, _⟩
    · rw [hquiet] at hmem
      cases hmem
    · rw [hquiet] at hmem
      cases hmem
  constructor
  case fields =>
    intro a ha d tid
    have hheld := h.held a ha
    cases ht : tableAt s .userSchemaMgr d tid with
    | none =>
        cases ht' : tableAt s a d tid with
        | none => rfl
        | some t' =>
            obtain ⟨t, hsome, _⟩ := hheld.only d tid t' ht'
            rw [ht] at hsome
            cases hsome
    | some t =>
        have hsome := (hheld.tables d tid t ht).resolve_right hnothing
        obtain ⟨t', ht'⟩ := Option.isSome_iff_exists.mp hsome
        obtain ⟨t₁, ht₁, hpre⟩ := hheld.only d tid t' ht'
        obtain rfl : t = t₁ := Option.some.inj (ht.symm.trans ht₁)
        rw [ht', Option.map_some, Option.map_some, hpre.eq_of_length_le]
        rw [List.length_map, List.length_map]
        refine Nat.le_of_not_lt fun hlt => ?_
        obtain ⟨t₂, ht₂, hlt₂⟩ :=
          (hheld.columns d tid t ht _ hlt).resolve_right hnothing
        obtain rfl : t' = t₂ := Option.some.inj (ht'.symm.trans ht₂)
        omega
  case names =>
    intro a ha d tid t ht i c hc
    rcases ha with rfl | ha
    · exact (h.numbered d tid t ht i c hc).2
    · exact (h.named a ha d tid t ht i c hc).resolve_right hnothing

/-! ## The parts of a step -/

theorem asked_pop {chan : Channels Actor Message} {a b : Actor}
    (ha : a ≠ .userSchemaMgr) (hb : b ≠ .userSchemaMgr) (n : Nat) :
    asked (chan.pop a b) n = asked chan n := by
  unfold asked
  rw [Channels.pop_of_ne fun h => hb h.2.symm,
    Channels.pop_of_ne fun h => ha h.1.symm]

theorem asked_send {chan : Channels Actor Message} {a : Actor}
    {dest : Actor → Bool} {msg : Message} (ha : a ≠ .userSchemaMgr)
    (hdest : ¬ dest .userSchemaMgr) (n : Nat) :
    asked (chan.send a dest msg) n = asked chan n := by
  unfold asked
  rw [Channels.send_of_not hdest, Channels.send_of_ne ha.symm]

/-- A step that leaves the operations alone. -/
theorem Later.of_operations {s s' : State}
    (hcounter : s'.operationidcounter = s.operationidcounter)
    (hpending : s'.pendingOperations = s.pendingOperations)
    (hdomains : ∀ a d, (s'.schemata a d).isSome = (s.schemata a d).isSome)
    (hgrows : ∀ d tid t, tableAt s .userSchemaMgr d tid = some t →
      ∃ t', tableAt s' .userSchemaMgr d tid = some t' ∧
        t.fields <+: t'.fields) : Later s s' where
  domains := hdomains
  grows := hgrows
  counter n := by rw [hcounter]
  kept n operationid o ho _ _ := by rw [hpending]; exact ho
  old n operationid o _ ho _ := by rw [hpending] at ho; exact ho

/-- A step that leaves the schemata alone. -/
theorem Later.of_schemata {s s' : State} (hschemata : s'.schemata = s.schemata)
    (hcounter : ∀ n, s.operationidcounter n ≤ s'.operationidcounter n)
    (hkept : ∀ n operationid o, s.pendingOperations n operationid = some o →
      o.state = .usm → operationid ∈ Proofs.asked s'.chan n →
      s'.pendingOperations n operationid = some o)
    (hold : ∀ n operationid o, operationid ≤ s.operationidcounter n →
      s'.pendingOperations n operationid = some o → o.state = .usm →
      s.pendingOperations n operationid = some o) : Later s s' where
  domains a d := by rw [hschemata]
  grows d tid t ht := by
    refine ⟨t, ?_, List.prefix_rfl⟩
    rw [tableAt, hschemata]
    exact ht
  counter := hcounter
  kept := hkept
  old := hold

namespace SchemaInvariant

variable {top : Topology} {s s' : State}

theorem of_schemata (h : SchemaInvariant top s)
    (hschemata : s'.schemata = s.schemata) (hlater : Later s s')
    (hvalid : ∀ a b, ∀ msg ∈ s'.chan a b,
      msg ∈ s.chan a b ∨ Valid s' a b msg)
    (hnodup : ∀ n, (asked s'.chan n).Nodup)
    (hcounted : ∀ n operationid o,
      s'.pendingOperations n operationid = some o →
        operationid ≤ s'.operationidcounter n)
    (hrelays : ∀ r, Topology.holdsSchemata top r → ∀ builtincmd about,
      Owed s r (.relay builtincmd) builtincmd about →
      Owed s' r (.relay builtincmd) builtincmd about)
    (hnames : ∀ a, top.isTransactionAgent a → ∀ about,
      Owed s a .fieldname .addcolumn about →
      Owed s' a .fieldname .addcolumn about) : SchemaInvariant top s' := by
  have htables : ∀ a d tid, tableAt s' a d tid = tableAt s a d tid := by
    intro a d tid
    rw [tableAt, hschemata]
    rfl
  have hfieldNames : ∀ a d tid name,
      fieldNameAt s' a d tid name = fieldNameAt s a d tid name := by
    intro a d tid name
    rw [fieldNameAt, hschemata]
    rfl
  constructor
  case domains => rw [hschemata]; exact h.domains
  case numbered =>
    intro d tid t ht i c hc
    rw [htables] at ht
    rw [hfieldNames]
    exact h.numbered d tid t ht i c hc
  case valid =>
    intro a b msg hmem
    rcases hvalid a b msg hmem with hbefore | hnow
    · exact (h.valid a b msg hbefore).later hlater hmem
    · exact hnow
  case operationsNodup => exact hnodup
  case counted => exact hcounted
  case held =>
    intro r hr
    exact (h.held r hr).of_owed (htables r) (htables _) (hrelays r hr)
  case named =>
    intro a ha
    exact (h.named a ha).of_owed (hfieldNames a) (htables _) (hnames a ha)

theorem counted_of_asked (h : SchemaInvariant top s) {n : Nat}
    {operationid : Int} (hmem : operationid ∈ asked s.chan n) :
    operationid ≤ s.operationidcounter n := by
  have hcounted : ∀ d cmd, Asked s n operationid d cmd →
      operationid ≤ s.operationidcounter n := by
    intro d cmd hasked
    obtain ⟨o, ho, _⟩ := hasked
    exact h.counted n operationid o ho
  rcases List.mem_append.mp hmem with hmem | hmem
  · obtain ⟨msg, hmsg, rfl⟩ := List.mem_map.mp hmem
    cases h.valid _ _ msg hmsg with
    | request _ hasked => exact hcounted _ _ hasked
    | relay hr => exact absurd rfl hr
  · obtain ⟨msg, hmsg, rfl⟩ := List.mem_map.mp hmem
    cases h.valid _ _ msg hmsg with
    | answer _ hasked => exact hcounted _ _ hasked
    | reply hr => exact absurd rfl hr

theorem holdsSchemata_ne {r : Actor} (h : Topology.holdsSchemata top r) :
    r ≠ .userSchemaMgr := by
  rintro rfl
  cases h

/-- A new request: its operation has a number of its own. -/
theorem startcmd (h : SchemaInvariant top s) {n : Nat} {domainid : Int}
    {req : Request} (hdomain : (s.schemata .userSchemaMgr domainid).isSome) :
    SchemaInvariant top (s.startcmd top n domainid req) := by
  have hchan : (s.startcmd top n domainid req).chan =
      s.chan.send (.transactionAgent n) (· = .userSchemaMgr)
        (.request (s.operationidcounter n + 1) domainid req) := rfl
  have hpending : ∀ n' operationid', operationid' ≤ s.operationidcounter n' →
      (s.startcmd top n domainid req).pendingOperations n' operationid' =
        s.pendingOperations n' operationid' := by
    intro n' operationid' hle
    refine if_neg fun hnew => ?_
    obtain ⟨rfl, hnew⟩ := hnew
    have hid : operationid' = s.operationidcounter n' + 1 := hnew
    omega
  have hcounter : ∀ n', s.operationidcounter n' ≤
      (s.startcmd top n domainid req).operationidcounter n' := by
    intro n'
    show _ ≤ Function.update s.operationidcounter n _ n'
    by_cases hn : n' = n
    · subst hn
      rw [Function.update_self]
      omega
    · rw [Function.update_of_ne hn]
  have hlater : Later s (s.startcmd top n domainid req) := by
    refine .of_schemata rfl hcounter ?_ ?_
    · intro n' operationid' o ho _ _
      rw [hpending n' operationid' (h.counted _ _ _ ho)]
      exact ho
    · intro n' operationid' o hle ho _
      rw [hpending n' operationid' hle] at ho
      exact ho
  have hkeeps : KeepsMessages s (s.startcmd top n domainid req)
      (.transactionAgent n) .userSchemaMgr
      (.request (s.operationidcounter n + 1) domainid req) := by
    intro x y msg hmem
    rw [hchan]
    exact .inr (Channels.mem_send_of_mem hmem)
  have howed : ∀ r, Topology.holdsSchemata top r → ∀ kind builtincmd about,
      Owed s r kind builtincmd about →
      Owed (s.startcmd top n domainid req) r kind builtincmd about := by
    intro r hr kind builtincmd about ho
    refine ho.later_of_not hlater hkeeps (by simp) fun hb => ?_
    exact absurd hb.symm (holdsSchemata_ne hr)
  refine h.of_schemata rfl hlater ?_ ?_ ?_
    (fun r hr builtincmd => howed r hr _ builtincmd)
    (fun a ha => howed a (by simp [Topology.holdsSchemata, ha]) _ _)
  · intro a b msg hmem
    rw [hchan] at hmem
    rcases Channels.mem_send.mp hmem with hmem | ⟨rfl, hb, rfl⟩
    · exact .inl hmem
    · obtain rfl : b = .userSchemaMgr := by simpa using hb
      exact .inr (.request hdomain ⟨_, if_pos ⟨rfl, rfl⟩, rfl, rfl, rfl⟩)
  · intro n'
    by_cases hn : n' = n
    · subst hn
      unfold asked
      rw [hchan, Channels.send_of_dest (by simp),
        Channels.send_of_ne (by simp), List.map_append, List.append_assoc]
      refine (List.perm_middle.nodup_iff).mpr (List.nodup_cons.mpr ⟨?_, ?_⟩)
      · intro hmem
        have hle := h.counted_of_asked (n := n') hmem
        have hid : Message.operationid (.request
          (s.operationidcounter n' + 1) domainid req) =
            s.operationidcounter n' + 1 := rfl
        omega
      · exact h.operationsNodup n'
    · have hsame : asked (s.startcmd top n domainid req).chan n' =
          asked s.chan n' := by
        unfold asked
        rw [hchan, Channels.send_of_ne (by simpa using hn),
          Channels.send_of_ne (by simp)]
      rw [hsame]
      exact h.operationsNodup n'
  · intro n' operationid' o ho
    by_cases hnew : n' = n ∧ operationid' = s.operationidcounter n + 1
    · obtain ⟨rfl, rfl⟩ := hnew
      show _ ≤ Function.update s.operationidcounter n' _ n'
      rw [Function.update_self]
    · have hsame : s.pendingOperations n' operationid' = some o := by
        rw [← ho]
        exact (if_neg hnew).symm
      exact le_trans (h.counted n' operationid' o hsame) (hcounter n')

end SchemaInvariant

/-! ## Replies -/

/-- The step is through with the operation, as far as `UserSchemaMgr` is
concerned, and changes no other and no schema. -/
structure Settles (s s' : State) (n : Nat) (operationid : Int) : Prop where
  schemata : s'.schemata = s.schemata
  counter : s'.operationidcounter = s.operationidcounter
  other : ∀ n' operationid', ¬ (n' = n ∧ operationid' = operationid) →
    s'.pendingOperations n' operationid' = s.pendingOperations n' operationid'
  settled : ∀ o, s'.pendingOperations n operationid = some o →
    o.state = .tasengines

namespace Settles

variable {s s' : State} {n : Nat} {operationid : Int}

theorem of_setOperation {o : Option Operation}
    (ho : ∀ o', o = some o' → o'.state = .tasengines)
    (hschemata : s'.schemata = s.schemata)
    (hcounter : s'.operationidcounter = s.operationidcounter)
    (hpending : s'.pendingOperations =
      (s.setOperation n operationid o).pendingOperations) :
    Settles s s' n operationid where
  schemata := hschemata
  counter := hcounter
  other n' operationid' hne := by
    rw [hpending]
    exact if_neg hne
  settled o' ho' := by
    rw [hpending] at ho'
    have hself : (s.setOperation n operationid o).pendingOperations n
        operationid = o := if_pos ⟨rfl, rfl⟩
    exact ho o' (hself ▸ ho')

theorem later (h : Settles s s' n operationid)
    (hnot : operationid ∉ asked s'.chan n) : Later s s' := by
  refine .of_schemata h.schemata (fun n' => by rw [h.counter]) ?_ ?_
  · intro n' operationid' o ho _ hmem
    rw [h.other n' operationid' ?_]
    · exact ho
    · intro hself
      obtain ⟨rfl, rfl⟩ := hself
      exact hnot hmem
  · intro n' operationid' o _ ho hstate
    by_cases hself : n' = n ∧ operationid' = operationid
    · obtain ⟨rfl, rfl⟩ := hself
      have hsettled := h.settled o ho
      rw [hstate] at hsettled
      cases hsettled
    · rw [← h.other n' operationid' hself]
      exact ho

theorem counted (h : Settles s s' n operationid)
    (hcounted : ∀ n' operationid' o,
      s.pendingOperations n' operationid' = some o →
      operationid' ≤ s.operationidcounter n')
    (hle : operationid ≤ s.operationidcounter n) (n' : Nat)
    (operationid' : Int) (o : Operation)
    (ho : s'.pendingOperations n' operationid' = some o) :
    operationid' ≤ s'.operationidcounter n' := by
  rw [h.counter]
  by_cases hself : n' = n ∧ operationid' = operationid
  · obtain ⟨rfl, rfl⟩ := hself
    exact hle
  · rw [h.other n' operationid' hself] at ho
    exact hcounted n' operationid' o ho

end Settles

/-- A reply of an actor that has done its part moves nothing but the
operation. -/
theorem schemareply_settles (top : Topology) (uninit : UserSchema) {s : State}
    {n : Nat} {m : UserSchema} (hsettled : OperationSettled s n m.operationid) :
    Settles s (s.schemareply top n m uninit) n m.operationid ∧
      (s.schemareply top n m uninit).chan = s.chan := by
  unfold State.schemareply
  cases ho : s.pendingOperations n m.operationid with
  | none =>
      refine ⟨⟨rfl, rfl, fun _ _ _ => rfl, fun o h => ?_⟩, rfl⟩
      exact hsettled.2 o h
  | some o =>
      have hstate := hsettled.2 o ho
      have hended : ∀ s₁ : State, s₁.schemata = s.schemata →
          s₁.operationidcounter = s.operationidcounter →
          s₁.pendingOperations = s.pendingOperations →
          Settles s (s₁.endOperation n m.operationid) n m.operationid := by
        intro s₁ hschemata hcounter hpending
        refine .of_setOperation (o := none) (by simp) hschemata hcounter ?_
        simp only [State.endOperation, State.setOperation, hpending]
      dsimp only
      rw [hstate]
      unfold State.tasenginesresponsecmd
      cases hstatus : m.status with
      | notOk => exact ⟨hended _ rfl rfl rfl, rfl⟩
      | ok =>
          dsimp only
          split
          · refine ⟨.of_setOperation (o := some _) ?_ rfl rfl rfl, rfl⟩
            intro o' ho'
            cases ho'
            exact hstate
          · exact ⟨hended _ rfl rfl rfl, rfl⟩

theorem keepsMessages_pop {s s' : State} {a b : Actor} {msg : Message}
    {rest : List Message} (hmsg : s.chan a b = msg :: rest)
    (h : ∀ x y msg', msg' ∈ s.chan.pop a b x y → msg' ∈ s'.chan x y) :
    KeepsMessages s s' a b msg := by
  intro x y msg' hmem
  exact (Channels.mem_pop_or hmsg hmem).imp id (h x y msg')

theorem OperationSettled.not_asked {s : State} {n : Nat} {operationid : Int}
    (h : OperationSettled s n operationid)
    (hvalid : ∀ a b, ∀ msg ∈ s.chan a b, Valid s a b msg) :
    operationid ∉ asked s.chan n := by
  have hcontra : ∀ d cmd, ¬ Asked s n operationid d cmd := by
    intro d cmd hasked
    obtain ⟨o, ho, hstate, _⟩ := hasked
    have htas := h.2 o ho
    rw [hstate] at htas
    cases htas
  intro hmem
  rcases List.mem_append.mp hmem with hmem | hmem
  · obtain ⟨msg, hmsg, rfl⟩ := List.mem_map.mp hmem
    cases hvalid _ _ msg hmsg with
    | request _ hasked => exact hcontra _ _ hasked
    | relay hr => exact absurd rfl hr
  · obtain ⟨msg, hmsg, rfl⟩ := List.mem_map.mp hmem
    cases hvalid _ _ msg hmsg with
    | answer _ hasked => exact hcontra _ _ hasked
    | reply hr => exact absurd rfl hr

namespace SchemaInvariant

variable {top : Topology} {s : State}

/-- An agent gets the reply of an actor that has done its part. -/
theorem receive_reply (h : SchemaInvariant top s) {n : Nat} {r : Actor}
    {m uninit : UserSchema} {rest : List Message}
    (hmsg : s.chan r (.transactionAgent n) = .schemareply m :: rest)
    (hr : r ≠ .userSchemaMgr) (hsettled : OperationSettled s n m.operationid) :
    SchemaInvariant top (State.schemareply top n m uninit
      { s with chan := s.chan.pop r (.transactionAgent n) }) := by
  obtain ⟨hsettles, hchan⟩ := schemareply_settles top uninit
    (s := { s with chan := s.chan.pop r (.transactionAgent n) }) hsettled
  have hsettles' : Settles s (State.schemareply top n m uninit
      { s with chan := s.chan.pop r (.transactionAgent n) }) n
      m.operationid :=
    ⟨hsettles.schemata, hsettles.counter, hsettles.other, hsettles.settled⟩
  have hasked : ∀ n', asked (State.schemareply top n m uninit
      { s with chan := s.chan.pop r (.transactionAgent n) }).chan n' =
      asked s.chan n' := by
    intro n'
    rw [hchan, asked_pop hr (by simp)]
  have hlater := hsettles'.later (by
    rw [hasked]
    exact hsettled.not_asked h.valid)
  have hkeeps : KeepsMessages s (State.schemareply top n m uninit
      { s with chan := s.chan.pop r (.transactionAgent n) }) r
      (.transactionAgent n) (.schemareply m) :=
    keepsMessages_pop hmsg fun x y msg' hmem => by rw [hchan]; exact hmem
  refine h.of_schemata hsettles'.schemata hlater ?_ ?_
    (hsettles'.counted h.counted hsettled.1) ?_ ?_
  · intro a b msg hmem
    rw [hchan] at hmem
    exact .inl (Channels.mem_of_mem_pop hmem)
  · intro n'
    rw [hasked]
    exact h.operationsNodup n'
  · intro r' _ builtincmd about ho
    exact ho.later_of_not hlater hkeeps hr (fun _ _ => by simp)
  · intro a _ about ho
    exact ho.later_of_not hlater hkeeps hr (fun _ _ => by simp)

end SchemaInvariant

/-! ## The answer of UserSchemaMgr -/

/-- The message `relayReply` sends to everybody. -/
def relayed (o : Operation) (m uninit : UserSchema) : UserSchema :=
  { newMessage uninit with
    operationid := m.operationid, domainid := o.domainid
    tableid := m.tableid, fieldid := m.fieldid, fieldtype := m.fieldtype
    fieldlen := m.fieldlen, indextype := m.indextype
    argstring := m.argstring }

/-- The message that tells the agents the new name. -/
def announced (builtincmd : Builtincmd) (m uninit : UserSchema) : Message :=
  match builtincmd with
  | .createtable => .tablename { newMessage uninit with
      domainid := m.domainid, tableid := m.tableid, argstring := m.argstring }
  | .addcolumn => .fieldname { newMessage uninit with
      domainid := m.domainid, tableid := m.tableid, fieldid := m.fieldid
      argstring := m.argstring }

theorem usmresponsecmd_eq (top : Topology) (n : Nat) (o : Operation)
    (m uninit : UserSchema) (s : State) :
    s.usmresponsecmd top n o m uninit =
      (s.relayReply top n o m uninit).send (.transactionAgent n)
        top.isTransactionAgent (announced o.builtincmd m uninit) := by
  unfold State.usmresponsecmd announced
  cases o.builtincmd <;> rfl

theorem mem_relayReply {top : Topology} {n : Nat} {o : Operation}
    {m uninit : UserSchema} {s : State} {x y : Actor} {msg : Message} :
    msg ∈ (s.relayReply top n o m uninit).chan x y ↔
      msg ∈ s.chan x y ∨ (x = .transactionAgent n ∧ m.status = .ok ∧
        Topology.holdsSchemata top y ∧
        msg = .relay o.builtincmd (relayed o m uninit)) := by
  cases hstatus : m.status with
  | notOk =>
      have hchan : (s.relayReply top n o m uninit).chan = s.chan := by
        unfold State.relayReply
        rw [hstatus]
        rfl
      rw [hchan]
      simp
  | ok =>
      have hchan : (s.relayReply top n o m uninit).chan =
          (s.chan.send (.transactionAgent n) top.isTransactionAgent
            (.relay o.builtincmd (relayed o m uninit))).send
            (.transactionAgent n) top.isEngine
            (.relay o.builtincmd (relayed o m uninit)) := by
        unfold State.relayReply
        rw [hstatus]
        rfl
      rw [hchan, Channels.mem_send, Channels.mem_send, Topology.holdsSchemata,
        Bool.or_eq_true]
      tauto

theorem mem_usmresponsecmd {top : Topology} {n : Nat} {o : Operation}
    {m uninit : UserSchema} {s : State} {x y : Actor} {msg : Message} :
    msg ∈ (s.usmresponsecmd top n o m uninit).chan x y ↔
      msg ∈ s.chan x y ∨ (x = .transactionAgent n ∧
        ((m.status = .ok ∧ Topology.holdsSchemata top y ∧
          msg = .relay o.builtincmd (relayed o m uninit)) ∨
        (top.isTransactionAgent y ∧
          msg = announced o.builtincmd m uninit))) := by
  rw [usmresponsecmd_eq]
  show msg ∈ (State.relayReply top n o m uninit s).chan.send _ _ _ x y ↔ _
  rw [Channels.mem_send, mem_relayReply]
  tauto

theorem asked_usmresponsecmd {top : Topology} {n : Nat} {o : Operation}
    {m uninit : UserSchema} {s : State} (n' : Nat) :
    asked (s.usmresponsecmd top n o m uninit).chan n' = asked s.chan n' := by
  have hta : ¬ top.isTransactionAgent .userSchemaMgr := by
    simp [Topology.isTransactionAgent]
  have hengine : ¬ top.isEngine .userSchemaMgr := by
    simp [Topology.isEngine]
  rw [usmresponsecmd_eq]
  show asked ((s.relayReply top n o m uninit).chan.send _ _ _) n' = _
  rw [asked_send (by simp) hta]
  unfold State.relayReply
  cases m.status with
  | notOk => rfl
  | ok =>
      show asked ((s.chan.send _ _ _).send _ _ _) n' = _
      rw [asked_send (by simp) hengine, asked_send (by simp) hta]

theorem usmresponsecmd_settles (top : Topology) (n : Nat) (o : Operation)
    (m uninit : UserSchema) (s : State) :
    Settles s (s.usmresponsecmd top n o m uninit) n m.operationid := by
  rw [usmresponsecmd_eq]
  unfold State.relayReply
  cases m.status with
  | notOk => exact .of_setOperation (o := none) (by simp) rfl rfl rfl
  | ok =>
      refine .of_setOperation (o := some _) ?_ rfl rfl rfl
      intro o' ho'
      cases ho'
      rfl

namespace SchemaInvariant

variable {top : Topology} {s : State}

theorem asked_pop_answer {chan : Channels Actor Message} {n : Nat}
    {msg : Message} {rest : List Message}
    (hmsg : chan .userSchemaMgr (.transactionAgent n) = msg :: rest)
    (hnodup : ∀ n', (asked chan n').Nodup) :
    Message.operationid msg ∉
      asked (chan.pop .userSchemaMgr (.transactionAgent n)) n ∧
      ∀ n', (asked (chan.pop .userSchemaMgr (.transactionAgent n)) n').Nodup
      := by
  have hself : asked chan n =
      (chan (.transactionAgent n) .userSchemaMgr).map Message.operationid ++
        Message.operationid msg :: rest.map Message.operationid := by
    unfold asked
    rw [hmsg, List.map_cons]
  have hpop : asked (chan.pop .userSchemaMgr (.transactionAgent n)) n =
      (chan (.transactionAgent n) .userSchemaMgr).map Message.operationid ++
        rest.map Message.operationid := by
    unfold asked
    rw [Channels.pop_of_ne (by simp), Channels.pop_self, hmsg, List.tail_cons]
  have hcons := (List.perm_middle.nodup_iff).mp (hself ▸ hnodup n)
  obtain ⟨hnot, hrest⟩ := List.nodup_cons.mp hcons
  refine ⟨by rw [hpop]; exact hnot, fun n' => ?_⟩
  by_cases hn : n' = n
  · subst hn
    rw [hpop]
    exact hrest
  · have hsame : asked (chan.pop .userSchemaMgr (.transactionAgent n)) n' =
        asked chan n' := by
      unfold asked
      rw [Channels.pop_of_ne (by simp), Channels.pop_of_ne (by simpa using hn)]
    rw [hsame]
    exact hnodup n'

/-- An agent gets the answer to its request and passes it on. -/
theorem receive_answer (h : SchemaInvariant top s) {n : Nat}
    {m uninit : UserSchema} {builtincmd : Builtincmd} {rest : List Message}
    (hmsg : s.chan .userSchemaMgr (.transactionAgent n) =
      .schemareply m :: rest)
    (hdomain : (s.schemata .userSchemaMgr m.domainid).isSome)
    (hasked : Asked s n m.operationid m.domainid builtincmd)
    (hok : m.status = .ok → ChangeTrue s builtincmd m)
    (hrefused : m.status = .notOk → m.argstring = "") :
    SchemaInvariant top (State.schemareply top n m uninit
      { s with chan := s.chan.pop .userSchemaMgr (.transactionAgent n) }) := by
  obtain ⟨o, ho, hstate, hodomain, rfl⟩ := hasked
  generalize hs₁ : { s with
    chan := s.chan.pop .userSchemaMgr (.transactionAgent n) } = s₁
  have hreply : s₁.schemareply top n m uninit =
      s₁.usmresponsecmd top n o m uninit := by
    unfold State.schemareply
    rw [← hs₁]
    dsimp only
    rw [ho]
    dsimp only
    rw [hstate]
  rw [hreply]
  have hchan : s₁.chan = s.chan.pop .userSchemaMgr (.transactionAgent n) := by
    rw [← hs₁]
  have hsettles : Settles s (s₁.usmresponsecmd top n o m uninit) n
      m.operationid := by
    have hs := usmresponsecmd_settles top n o m uninit s₁
    exact ⟨by rw [hs.schemata, ← hs₁], by rw [hs.counter, ← hs₁],
      fun n' op' hne => by rw [hs.other n' op' hne, ← hs₁], hs.settled⟩
  obtain ⟨hnot, hnodup⟩ := asked_pop_answer hmsg h.operationsNodup
  have hlater : Later s (s₁.usmresponsecmd top n o m uninit) := by
    refine hsettles.later ?_
    rw [asked_usmresponsecmd, hchan]
    exact hnot
  have hle := h.counted _ _ _ ho
  have hsettled : OperationSettled (s₁.usmresponsecmd top n o m uninit) n
      m.operationid :=
    ⟨by rw [hsettles.counter]; exact hle, hsettles.settled⟩
  have hkeeps : KeepsMessages s (s₁.usmresponsecmd top n o m uninit)
      .userSchemaMgr (.transactionAgent n) (.schemareply m) := by
    refine keepsMessages_pop hmsg fun x y msg' hmem => ?_
    rw [mem_usmresponsecmd, hchan]
    exact .inl hmem
  -- What the answer was about is now in the messages that pass it on.
  have hpassed : ∀ {r kind cmd about},
      (m.status = .ok → o.builtincmd = cmd →
        ∃ m', subject m' = subject m ∧ kind m' ∈
          (s₁.usmresponsecmd top n o m uninit).chan (.transactionAgent n) r) →
      (∀ m', Message.schemareply m ≠ kind m') →
      Owed s r kind cmd about →
      Owed (s₁.usmresponsecmd top n o m uninit) r kind cmd about := by
    intro r kind cmd about hpass hkind howed
    rcases howed.later hlater hkeeps with howed | ⟨_, m', hm', _⟩ |
      ⟨_, n', m', hn', hm', hstatus, hasked', habout⟩
    · exact howed
    · exact absurd hm' (hkind m')
    · obtain rfl : n = n' := by simpa using hn'
      obtain rfl : m = m' := by simpa using hm'
      obtain ⟨o', ho', _, _, hcmd⟩ := hasked'
      obtain rfl : o = o' := Option.some.inj (ho.symm.trans ho')
      obtain ⟨m', hm', hmem⟩ := hpass hstatus hcmd
      exact .inl ⟨_, m', hmem, hm' ▸ habout⟩
  refine h.of_schemata hsettles.schemata hlater ?_ ?_
    (hsettles.counted h.counted hle) ?_ ?_
  · intro a b msg hmem
    rw [mem_usmresponsecmd, hchan] at hmem
    rcases hmem with hmem | ⟨rfl, ⟨hstatus, hb, rfl⟩ | ⟨hb, rfl⟩⟩
    · exact .inl (Channels.mem_of_mem_pop hmem)
    · refine .inr (.relay (holdsSchemata_ne hb) ?_ hsettled)
      have htrue := hlater.changeTrue (hok hstatus)
      unfold relayed
      rw [hodomain]
      cases hcmd : o.builtincmd with
      | createtable => rw [hcmd] at htrue; exact htrue
      | addcolumn => rw [hcmd] at htrue; exact htrue
    · cases b with
      | userSchemaMgr => cases hb
      | engine k => cases hb
      | transactionAgent k =>
          right
          unfold announced
          cases hcmd : o.builtincmd with
          | createtable => exact .tablename (hlater.isSome_domain hdomain)
          | addcolumn =>
              refine .fieldname (hlater.isSome_domain hdomain) ?_
              cases hstatus : m.status with
              | notOk => exact .inl (hrefused hstatus)
              | ok =>
                  have htrue := hok hstatus
                  rw [hcmd] at htrue
                  exact .inr (hlater.nameTrue htrue.nameTrue)
  · intro n'
    rw [asked_usmresponsecmd, hchan]
    exact hnodup n'
  · intro r hr cmd about
    refine hpassed (fun hstatus hcmd => ?_) (fun _ => by simp)
    refine ⟨relayed o m uninit, ?_, ?_⟩
    · unfold relayed
      rw [hodomain]
      rfl
    · rw [mem_usmresponsecmd, ← hcmd]
      exact .inr ⟨rfl, .inl ⟨hstatus, hr, rfl⟩⟩
  · intro a ha about
    refine hpassed (fun _ hcmd => ?_) (fun _ => by simp)
    refine ⟨{ newMessage uninit with
      domainid := m.domainid, tableid := m.tableid, fieldid := m.fieldid
      argstring := m.argstring }, rfl,
      mem_usmresponsecmd.mpr (.inr ⟨rfl, .inr ⟨ha, ?_⟩⟩)⟩
    unfold announced
    rw [hcmd]

end SchemaInvariant

/-! ## A request at UserSchemaMgr -/

theorem fields_addfield {t : Table} {type : Fieldtype} {length : Int}
    {name : String} {indextype : Indextype} :
    (t.addfield type length name indextype).2.fields =
      t.fields ++ [⟨type, length, indextype, name⟩] := rfl

theorem columnaName_addfield {t : Table} {type : Fieldtype} {length : Int}
    {name : String} {indextype : Indextype} :
    (t.addfield type length name indextype).2.columnaNameToFieldMap =
      Function.update t.columnaNameToFieldMap name
        (some (t.fields.length : Int)) := by
  rw [← length_addfield t type length name indextype]
  rfl

section Request

variable {s s' : State} {domainid : Int} {schema schema' : Schema}
  {builtincmd : Builtincmd} {status : Status} {m : UserSchema}

/-- The tables after a request: those from before, the new one, or the one
with the new column. -/
theorem RequestHandled.table_after
    (h : RequestHandled builtincmd schema schema' status m)
    (hc : ChangesAt s s' .userSchemaMgr domainid schema schema')
    {d tid : Int} {t' : Table}
    (ht' : tableAt s' .userSchemaMgr d tid = some t') :
    tableAt s .userSchemaMgr d tid = some t' ∨
      (status = .ok ∧ d = domainid ∧ tid = m.tableid ∧
        ((builtincmd = .createtable ∧
            tableAt s .userSchemaMgr d tid = none ∧ t' = {}) ∨
          (builtincmd = .addcolumn ∧ ∃ t,
            tableAt s .userSchemaMgr d tid = some t ∧
            t.columnaNameToFieldMap m.argstring = none ∧
            m.fieldid = t.fields.length ∧
            t' = (t.addfield m.fieldtype m.fieldlen m.argstring
              m.indextype).2))) := by
  by_cases hd : d = domainid
  · subst hd
    rw [hc.tableAt_after] at ht'
    rw [hc.tableAt_before]
    cases h with
    | refused _ htables _ => exact .inl (htables ▸ ht')
    | created hcmd hnew htables _ =>
        rw [htables] at ht'
        by_cases htid : tid = m.tableid
        · subst htid
          rw [Function.update_self] at ht'
          exact .inr ⟨rfl, rfl, rfl,
            .inl ⟨hcmd, hnew, (Option.some.inj ht').symm⟩⟩
        · rw [Function.update_of_ne htid] at ht'
          exact .inl ht'
    | added hcmd ht hnew hfieldid htables _ =>
        rw [htables] at ht'
        by_cases htid : tid = m.tableid
        · subst htid
          rw [Function.update_self] at ht'
          exact .inr ⟨rfl, rfl, rfl,
            .inr ⟨hcmd, _, ht, hnew, hfieldid, (Option.some.inj ht').symm⟩⟩
        · rw [Function.update_of_ne htid] at ht'
          exact .inl ht'
  · rw [hc.tableAt_other (fun h => hd h.2)] at ht'
    exact .inl ht'

theorem RequestHandled.grows
    (h : RequestHandled builtincmd schema schema' status m)
    (hc : ChangesAt s s' .userSchemaMgr domainid schema schema')
    {d tid : Int} {t : Table} (ht : tableAt s .userSchemaMgr d tid = some t) :
    ∃ t', tableAt s' .userSchemaMgr d tid = some t' ∧
      t.fields <+: t'.fields := by
  by_cases hd : d = domainid
  · subst hd
    rw [hc.tableAt_before] at ht
    rw [hc.tableAt_after]
    cases h with
    | refused _ htables _ => exact ⟨t, htables ▸ ht, List.prefix_rfl⟩
    | created hcmd hnew htables _ =>
        refine ⟨t, ?_, List.prefix_rfl⟩
        rw [htables, Function.update_of_ne]
        · exact ht
        · intro htid
          rw [htid, hnew] at ht
          cases ht
    | added hcmd htold hnew hfieldid htables _ =>
        rw [htables]
        by_cases htid : tid = m.tableid
        · subst htid
          obtain rfl := Option.some.inj (htold.symm.trans ht)
          exact ⟨_, Function.update_self .., List.prefix_append ..⟩
        · exact ⟨t, by rw [Function.update_of_ne htid]; exact ht,
            List.prefix_rfl⟩
  · refine ⟨t, ?_, List.prefix_rfl⟩
    rw [hc.tableAt_other (fun h => hd h.2)]
    exact ht

/-- The reply to a request that was granted is true. -/
theorem RequestHandled.changeTrue
    (h : RequestHandled builtincmd schema schema' .ok m)
    (hc : ChangesAt s s' .userSchemaMgr domainid schema schema')
    (hm : m.domainid = domainid) : ChangeTrue s' builtincmd m := by
  subst hm
  cases h with
  | created hcmd _ htables _ =>
      subst hcmd
      show (tableAt s' .userSchemaMgr m.domainid m.tableid).isSome
      rw [hc.tableAt_after, htables, Function.update_self]
      rfl
  | @added _ t hcmd _ _ hfieldid htables _ =>
      subst hcmd
      refine ⟨(t.addfield m.fieldtype m.fieldlen m.argstring m.indextype).2,
        t.fields.length, ?_, hfieldid, ?_⟩
      · rw [hc.tableAt_after, htables, Function.update_self]
      · rw [fields_addfield, List.getElem?_concat_length]

/-- The numbers of the names from before stay. -/
theorem RequestHandled.fieldNameAt_old
    (h : RequestHandled builtincmd schema schema' status m)
    (hc : ChangesAt s s' .userSchemaMgr domainid schema schema')
    (hnumbered : Numbered s) {d tid : Int} {t : Table} {i : Nat} {c : Column}
    (ht : tableAt s .userSchemaMgr d tid = some t)
    (hcol : t.fields[i]? = some c) :
    fieldNameAt s' .userSchemaMgr d tid c.name = some (i : Int) := by
  obtain ⟨hmap, hname⟩ := hnumbered d tid t ht i c hcol
  by_cases hd : d = domainid
  · subst hd
    rw [hc.fieldNameAt_before] at hname
    rw [hc.tableAt_before] at ht
    rw [hc.fieldNameAt_after]
    cases h with
    | refused _ _ hnames => rw [hnames]; exact hname
    | created _ _ _ hnames => rw [hnames]; exact hname
    | added _ htold hnew _ _ hnames =>
        rw [hnames]
        dsimp only
        rw [if_neg]
        · exact hname
        · rintro ⟨htid, hsame⟩
          subst htid
          obtain rfl := Option.some.inj (htold.symm.trans ht)
          rw [← hsame, hmap] at hnew
          cases hnew
  · rw [hc.fieldNameAt_other (fun h => hd h.2)]
    exact hname

theorem RequestHandled.numbered
    (h : RequestHandled builtincmd schema schema' status m)
    (hc : ChangesAt s s' .userSchemaMgr domainid schema schema')
    (hnumbered : Numbered s) : Numbered s' := by
  intro d tid t' ht' i c hcol
  rcases h.table_after hc ht' with ht | ⟨rfl, rfl, rfl, ⟨_, _, rfl⟩ |
    ⟨_, t, ht, hnew, hfieldid, rfl⟩⟩
  · exact ⟨(hnumbered d tid t' ht i c hcol).1,
      h.fieldNameAt_old hc hnumbered ht hcol⟩
  · simp at hcol
  · rw [columnaName_addfield]
    rw [fields_addfield] at hcol
    rcases Nat.lt_or_ge i t.fields.length with hi | hi
    · rw [List.getElem?_append_left hi] at hcol
      obtain ⟨hmap, _⟩ := hnumbered d _ t ht i c hcol
      refine ⟨?_, h.fieldNameAt_old hc hnumbered ht hcol⟩
      rw [Function.update_of_ne]
      · exact hmap
      · intro hsame
        rw [hsame, hnew] at hmap
        cases hmap
    · rw [List.getElem?_append_right hi] at hcol
      obtain ⟨hi', rfl⟩ : i = t.fields.length ∧
          c = ⟨m.fieldtype, m.fieldlen, m.indextype, m.argstring⟩ := by
        rcases List.getElem?_eq_some_iff.mp hcol with ⟨hlt, hval⟩
        simp only [List.length_singleton] at hlt
        refine ⟨by omega, ?_⟩
        simpa using hval.symm
      subst hi'
      refine ⟨Function.update_self .., ?_⟩
      rw [hc.fieldNameAt_after]
      cases h with
      | created hcmd hnone _ _ =>
          rw [hc.tableAt_before, hnone] at ht
          cases ht
      | added _ _ _ _ _ hnames =>
          rw [hnames]
          dsimp only
          rw [if_pos ⟨rfl, rfl⟩, hfieldid]

end Request

namespace SchemaInvariant

variable {top : Topology} {s : State}

theorem asked_request {chan : Channels Actor Message} {n : Nat}
    {msg msg' : Message} {rest : List Message}
    (hmsg : chan (.transactionAgent n) .userSchemaMgr = msg :: rest)
    (hid : Message.operationid msg' = Message.operationid msg) (n' : Nat) :
    (asked ((chan.pop (.transactionAgent n) .userSchemaMgr).send
      .userSchemaMgr (· = .transactionAgent n) msg') n').Perm
      (asked chan n') := by
  unfold asked
  by_cases hn : n' = n
  · subst hn
    rw [Channels.send_of_ne (by simp), Channels.send_of_dest (by simp),
      Channels.pop_self, Channels.pop_of_ne (by simp), hmsg, List.tail_cons]
    simp only [List.map_append, List.map_cons, List.map_nil, hid]
    rw [← List.append_assoc]
    exact List.perm_append_singleton ..
  · rw [Channels.send_of_ne (by simp), Channels.send_of_not (by simpa using hn),
      Channels.pop_of_ne (by simpa using hn), Channels.pop_of_ne (by simp)]

/-- `UserSchemaMgr` gets a request and answers it. -/
theorem receive_request (h : SchemaInvariant top s) {n : Nat}
    {operationid domainid : Int} {req : Request} {uninit m : UserSchema}
    {status : Status} {schemata : DomainidToSchemaMap} {rest : List Message}
    (hmsg : s.chan (.transactionAgent n) .userSchemaMgr =
      .request operationid domainid req :: rest)
    (hdomain : (s.schemata .userSchemaMgr domainid).isSome)
    (hasked : Asked s n operationid domainid req.builtincmd)
    (hhandle : UserSchemaMgr.handle (s.schemata .userSchemaMgr) domainid req
      uninit = (status, m, schemata)) :
    SchemaInvariant top ((State.setSchemata { s with
        chan := s.chan.pop (.transactionAgent n) .userSchemaMgr }
      .userSchemaMgr schemata).send .userSchemaMgr (· = .transactionAgent n)
        (usmReply operationid status m)) := by
  obtain ⟨schema, hschema⟩ := Option.isSome_iff_exists.mp hdomain
  obtain ⟨hm, schema', hupdate, hhandled⟩ := handle_handled hschema hhandle
  replace hm : m.domainid = domainid := hm
  generalize hs' : (State.setSchemata { s with
      chan := s.chan.pop (.transactionAgent n) .userSchemaMgr }
    .userSchemaMgr schemata).send .userSchemaMgr (· = .transactionAgent n)
      (usmReply operationid status m) = s'
  have hchan : s'.chan = (s.chan.pop (.transactionAgent n) .userSchemaMgr).send
      .userSchemaMgr (· = .transactionAgent n)
      (usmReply operationid status m) := by rw [← hs']; rfl
  have hchange : ChangesAt s s' .userSchemaMgr domainid schema schema' := by
    refine .of_update hschema ?_
    rw [← hs', ← hupdate]
    rfl
  have hpending : s'.pendingOperations = s.pendingOperations := by
    rw [← hs']; rfl
  have hcounter : s'.operationidcounter = s.operationidcounter := by
    rw [← hs']; rfl
  have hlater : Later s s' :=
    .of_operations hcounter hpending hchange.domains
      fun d tid t ht => hhandled.grows hchange ht
  have hkeeps : KeepsMessages s s' (.transactionAgent n) .userSchemaMgr
      (.request operationid domainid req) := by
    refine keepsMessages_pop hmsg fun x y msg' hmem => ?_
    rw [hchan]
    exact Channels.mem_send_of_mem hmem
  have hasked' : Asked s' n operationid m.domainid req.builtincmd := by
    unfold Asked
    rw [hpending, hm]
    exact hasked
  have hanswer : usmReply operationid status m ∈
      s'.chan .userSchemaMgr (.transactionAgent n) := by
    rw [hchan]
    exact Channels.mem_send_self (by simp)
  -- What a request that was granted is about is now in its answer.
  have hnew : ∀ {r kind about}, status = .ok → about (subject m) →
      Owed s' r kind req.builtincmd about := by
    intro r kind about hok habout
    exact .inr ⟨n, _, hanswer, hok, hasked', habout⟩
  have howed : ∀ {r kind cmd about}, r ≠ .userSchemaMgr →
      Owed s r kind cmd about → Owed s' r kind cmd about := by
    intro r kind cmd about hr ho
    exact ho.later_of_not hlater hkeeps (by simp) fun hb => absurd hb.symm hr
  constructor
  case domains =>
    intro a d
    rw [hchange.domains, hchange.domains]
    exact h.domains a d
  case numbered => exact hhandled.numbered hchange h.numbered
  case valid =>
    intro a b msg hmem
    have hmem' := hmem
    rw [hchan] at hmem'
    rcases Channels.mem_send.mp hmem' with hold | ⟨rfl, hb, rfl⟩
    · exact (h.valid a b msg (Channels.mem_of_mem_pop hold)).later hlater hmem
    · obtain rfl : b = .transactionAgent n := by simpa using hb
      refine .answer ?_ hasked' ?_ ?_
      · show (s'.schemata _ m.domainid).isSome
        rw [hm]
        exact hlater.isSome_domain hdomain
      · intro hstatus
        have hok : status = .ok := hstatus
        subst hok
        have htrue := hhandled.changeTrue hchange hm
        cases hcmd : req.builtincmd with
        | createtable => rw [hcmd] at htrue; exact htrue
        | addcolumn => rw [hcmd] at htrue; exact htrue
      · intro hstatus
        have hnotOk : status = .notOk := hstatus
        subst hnotOk
        cases hhandled with
        | refused hname => exact hname
  case operationsNodup =>
    intro n'
    have hid : Message.operationid (usmReply operationid status m) =
        Message.operationid (.request operationid domainid req) := rfl
    rw [hchan]
    exact (asked_request hmsg hid n').nodup_iff.mpr (h.operationsNodup n')
  case counted =>
    rw [hpending, hcounter]
    exact h.counted
  case held =>
    intro r hr
    have hne := holdsSchemata_ne hr
    have hheld := h.held r hr
    have hsame : ∀ d tid, tableAt s' r d tid = tableAt s r d tid :=
      fun d tid => hchange.tableAt_other (fun hr' => hne hr'.1) tid
    constructor
    case only =>
      intro d tid t₁ ht₁
      rw [hsame] at ht₁
      obtain ⟨t, ht, hpre⟩ := hheld.only d tid t₁ ht₁
      obtain ⟨t', ht', hpre'⟩ := hlater.grows d tid t ht
      exact ⟨t', ht', hpre.trans (hpre'.map shape)⟩
    case tables =>
      intro d tid t' ht'
      rw [hsame]
      rcases hhandled.table_after hchange ht' with ht | ⟨hok, rfl, rfl,
        ⟨hcmd, _, _⟩ | ⟨_, t, ht, _⟩⟩
      · exact (hheld.tables d tid t' ht).imp id (howed hne)
      · rw [← hcmd]
        exact .inr (hnew hok ⟨hm, rfl⟩)
      · exact (hheld.tables _ _ t ht).imp id (howed hne)
    case columns =>
      intro d tid t' ht' i hi
      rw [hsame]
      rcases hhandled.table_after hchange ht' with ht | ⟨hok, rfl, rfl,
        ⟨_, _, rfl⟩ | ⟨hcmd, t, ht, _, hfieldid, rfl⟩⟩
      · exact (hheld.columns d tid t' ht i hi).imp id (howed hne)
      · simp at hi
      · rw [fields_addfield, List.length_append, List.length_singleton] at hi
        rcases Nat.lt_or_ge i t.fields.length with hlt | hge
        · exact (hheld.columns _ _ t ht i hlt).imp id (howed hne)
        · obtain rfl : i = t.fields.length := by omega
          rw [← hcmd]
          exact .inr (hnew hok ⟨⟨hm, rfl⟩, hfieldid⟩)
  case named =>
    intro a ha d tid t' ht' i c hcol
    have hne : a ≠ .userSchemaMgr :=
      holdsSchemata_ne (by rw [Topology.holdsSchemata, ha]; rfl)
    rw [hchange.fieldNameAt_other (fun ha' => hne ha'.1)]
    rcases hhandled.table_after hchange ht' with ht | ⟨hok, rfl, rfl,
      ⟨_, _, rfl⟩ | ⟨hcmd, t, ht, _, hfieldid, rfl⟩⟩
    · exact (h.named a ha d tid t' ht i c hcol).imp id (howed hne)
    · simp at hcol
    · rw [fields_addfield] at hcol
      rcases Nat.lt_or_ge i t.fields.length with hlt | hge
      · rw [List.getElem?_append_left hlt] at hcol
        exact (h.named a ha _ _ t ht i c hcol).imp id (howed hne)
      · obtain ⟨hi, hc⟩ := List.getElem?_eq_some_iff.mp hcol
        rw [List.length_append, List.length_singleton] at hi
        obtain rfl : i = t.fields.length := by omega
        rw [List.getElem_concat_length rfl] at hc
        subst hc
        rw [← hcmd]
        exact .inr (hnew hok ⟨⟨⟨hm, rfl⟩, hfieldid⟩, rfl⟩)

end SchemaInvariant

/-! ## What has been relayed arrives -/

theorem prefix_concat_of_getElem? {α : Type} {xs ys : List α} {y : α}
    (h : xs <+: ys) (hy : ys[xs.length]? = some y) : xs ++ [y] <+: ys := by
  obtain ⟨zs, rfl⟩ := h
  rw [List.getElem?_append_right (Nat.le_refl _), Nat.sub_self] at hy
  cases zs with
  | nil => cases hy
  | cons z zs =>
      obtain rfl : z = y := Option.some.inj hy
      exact ⟨zs, by simp⟩

/-- A step at one receiver, which changes its schema. -/
structure Arrives (s s' : State) (n : Nat) (r : Actor) (msg : Message)
    (domainid : Int) (schema schema' : Schema) : Prop where
  change : ChangesAt s s' r domainid schema schema'
  pending : s'.pendingOperations = s.pendingOperations
  counter : s'.operationidcounter = s.operationidcounter
  keeps : KeepsMessages s s' (.transactionAgent n) r msg
  asked : ∀ n', asked s'.chan n' = asked s.chan n'

namespace Arrives

variable {s s' : State} {n : Nat} {r : Actor} {msg : Message} {domainid : Int}
  {schema schema' : Schema}

theorem later (h : Arrives s s' n r msg domainid schema schema')
    (hr : r ≠ .userSchemaMgr) : Later s s' := by
  refine .of_operations h.counter h.pending h.change.domains ?_
  intro d tid t ht
  refine ⟨t, ?_, List.prefix_rfl⟩
  rw [h.change.tableAt_other fun hu => hr hu.1.symm]
  exact ht

theorem usm (h : Arrives s s' n r msg domainid schema schema')
    (hr : r ≠ .userSchemaMgr) (d tid : Int) :
    tableAt s' .userSchemaMgr d tid = tableAt s .userSchemaMgr d tid :=
  h.change.tableAt_other (fun hu => hr hu.1.symm) tid

/-- What is to come for another receiver, or in another message. -/
theorem owed (h : Arrives s s' n r msg domainid schema schema')
    (hr : r ≠ .userSchemaMgr) {r' : Actor} {kind : UserSchema → Message}
    {builtincmd : Builtincmd} {about : Subject → Prop}
    (hother : r = r' → ∀ m, msg ≠ kind m)
    (howed : Owed s r' kind builtincmd about) :
    Owed s' r' kind builtincmd about :=
  howed.later_of_not (h.later hr) h.keeps (by simp) hother

/-- What the receiver waits for: it is still to come, or it has come. -/
theorem owed_or (h : Arrives s s' n r msg domainid schema schema')
    (hr : r ≠ .userSchemaMgr) {kind : UserSchema → Message}
    {builtincmd : Builtincmd} {about : Subject → Prop}
    (howed : Owed s r kind builtincmd about) :
    Owed s' r kind builtincmd about ∨
      ∃ m, msg = kind m ∧ about (subject m) := by
  rcases howed.later (h.later hr) h.keeps with howed | ⟨_, m, hm⟩ | ⟨hu, _⟩
  · exact .inl howed
  · exact .inr ⟨m, hm⟩
  · cases hu

theorem invariant {top : Topology}
    (h : Arrives s s' n r msg domainid schema schema')
    (hinv : SchemaInvariant top s) (hr : r ≠ .userSchemaMgr)
    (hvalid : ∀ a b, ∀ msg ∈ s'.chan a b,
      msg ∈ s.chan a b ∨ Valid s' a b msg)
    (hheld : Topology.holdsSchemata top r → HeldSchema s' r)
    (hnamed : top.isTransactionAgent r → Named s' r) :
    SchemaInvariant top s' := by
  have hlater := h.later hr
  constructor
  case domains =>
    intro a d
    rw [h.change.domains, h.change.domains]
    exact hinv.domains a d
  case numbered =>
    intro d tid t ht i c hc
    rw [h.usm hr] at ht
    rw [h.change.fieldNameAt_other fun hu => hr hu.1.symm]
    exact hinv.numbered d tid t ht i c hc
  case valid =>
    intro a b msg hmem
    rcases hvalid a b msg hmem with hold | hnew
    · exact (hinv.valid a b msg hold).later hlater hmem
    · exact hnew
  case operationsNodup =>
    intro n'
    rw [h.asked]
    exact hinv.operationsNodup n'
  case counted =>
    rw [h.pending, h.counter]
    exact hinv.counted
  case held =>
    intro r' hr'
    by_cases hsame : r' = r
    · subst hsame
      exact hheld hr'
    · refine (hinv.held r' hr').of_owed ?_ (h.usm hr) ?_
      · intro d tid
        exact h.change.tableAt_other (fun hu => hsame hu.1) tid
      · intro cmd about ho
        exact h.owed hr (fun hb => absurd hb.symm hsame) ho
  case named =>
    intro a ha
    by_cases hsame : a = r
    · subst hsame
      exact hnamed ha
    · refine (hinv.named a ha).of_owed ?_ (h.usm hr) ?_
      · intro d tid name
        exact h.change.fieldNameAt_other (fun hu => hsame hu.1) tid name
      · intro about ho
        exact h.owed hr (fun hb => absurd hb.symm hsame) ho

/-- A message that is no column leaves the tables there are. -/
theorem held (h : Arrives s s' n r msg domainid schema schema')
    (hr : r ≠ .userSchemaMgr) (hheld : HeldSchema s r)
    (hkeep : ∀ tid t, schema.tables tid = some t →
      schema'.tables tid = some t)
    (honly : ∀ tid t', schema'.tables tid = some t' →
      schema.tables tid = some t' ∨ t'.fields = [] ∧
        (tableAt s .userSchemaMgr domainid tid).isSome)
    (hcreated : ∀ m, msg = .relay .createtable m → m.domainid = domainid ∧
      (schema'.tables m.tableid).isSome)
    (hcolumn : ∀ m, msg ≠ .relay .addcolumn m) : HeldSchema s' r := by
  have hkeep' : ∀ d tid t, tableAt s r d tid = some t →
      tableAt s' r d tid = some t := by
    intro d tid t ht
    by_cases hd : d = domainid
    · subst hd
      rw [h.change.tableAt_before] at ht
      rw [h.change.tableAt_after]
      exact hkeep tid t ht
    · rw [h.change.tableAt_other fun hu => hd hu.2]
      exact ht
  constructor
  case only =>
    intro d tid t' ht'
    rw [h.usm hr]
    by_cases hd : d = domainid
    · subst hd
      rw [h.change.tableAt_after] at ht'
      rcases honly tid t' ht' with hold | ⟨hnil, hsome⟩
      · rw [← h.change.tableAt_before] at hold
        exact hheld.only d tid t' hold
      · obtain ⟨t, ht⟩ := Option.isSome_iff_exists.mp hsome
        refine ⟨t, ht, ?_⟩
        rw [hnil]
        exact List.nil_prefix
    · rw [h.change.tableAt_other fun hu => hd hu.2] at ht'
      exact hheld.only d tid t' ht'
  case tables =>
    intro d tid t ht
    rw [h.usm hr] at ht
    rcases hheld.tables d tid t ht with hsome | howed
    · obtain ⟨t', ht'⟩ := Option.isSome_iff_exists.mp hsome
      exact .inl (Option.isSome_iff_exists.mpr ⟨t', hkeep' d tid t' ht'⟩)
    · rcases h.owed_or hr howed with howed | ⟨m, hm, hd, htid⟩
      · exact .inr howed
      · obtain ⟨hdomain, hsome⟩ := hcreated m hm
        obtain rfl : d = domainid := hd.symm.trans hdomain
        obtain rfl : tid = m.tableid := htid.symm
        rw [h.change.tableAt_after]
        exact .inl hsome
  case columns =>
    intro d tid t ht i hi
    rw [h.usm hr] at ht
    rcases hheld.columns d tid t ht i hi with ⟨t', ht', hlt⟩ | howed
    · exact .inl ⟨t', hkeep' d tid t' ht', hlt⟩
    · exact .inr (h.owed hr (fun _ => hcolumn) howed)

/-- A column that is the next is added to the columns there are. -/
theorem held_column {m : UserSchema} {t t' tu : Table} {name : String}
    (h : Arrives s s' n r (.relay .addcolumn m) m.domainid schema schema')
    (hr : r ≠ .userSchemaMgr) (hheld : HeldSchema s r)
    (ht : tableAt s r m.domainid m.tableid = some t)
    (htables : schema'.tables =
      Function.update schema.tables m.tableid (some t'))
    (hfields : t'.fields =
      t.fields ++ [⟨m.fieldtype, m.fieldlen, m.indextype, name⟩])
    (hi : m.fieldid = t.fields.length)
    (htu : tableAt s .userSchemaMgr m.domainid m.tableid = some tu)
    (hcol : tu.fields[t.fields.length]? =
      some ⟨m.fieldtype, m.fieldlen, m.indextype, m.argstring⟩) :
    HeldSchema s' r := by
  have hchange := h.change
  have hafter := hchange.tableAt_after m.tableid
  rw [htables, Function.update_self] at hafter
  -- Every other table is what it was.
  have hother : ∀ d tid, ¬ (d = m.domainid ∧ tid = m.tableid) →
      tableAt s' r d tid = tableAt s r d tid := by
    intro d tid hne
    by_cases hd : d = m.domainid
    · subst hd
      rw [hchange.tableAt_after, hchange.tableAt_before, htables,
        Function.update_of_ne fun htid => hne ⟨rfl, htid⟩]
    · exact hchange.tableAt_other (fun hu => hd hu.2) tid
  constructor
  case only =>
    intro d tid t₁ ht₁
    rw [h.usm hr]
    by_cases hself : d = m.domainid ∧ tid = m.tableid
    · obtain ⟨rfl, rfl⟩ := hself
      obtain rfl := Option.some.inj (hafter.symm.trans ht₁)
      obtain ⟨tu', htu', hpre⟩ := hheld.only _ _ t ht
      obtain rfl := Option.some.inj (htu.symm.trans htu')
      refine ⟨tu, htu, ?_⟩
      rw [hfields, List.map_append, List.map_singleton]
      refine prefix_concat_of_getElem? hpre ?_
      rw [List.length_map, List.getElem?_map, hcol]
      rfl
    · rw [hother d tid hself] at ht₁
      exact hheld.only d tid t₁ ht₁
  case tables =>
    intro d tid t₁ ht₁
    rw [h.usm hr] at ht₁
    rcases hheld.tables d tid t₁ ht₁ with hsome | howed
    · left
      by_cases hself : d = m.domainid ∧ tid = m.tableid
      · obtain ⟨rfl, rfl⟩ := hself
        rw [hafter]
        rfl
      · rw [hother d tid hself]
        exact hsome
    · exact .inr (h.owed hr (fun _ => by simp) howed)
  case columns =>
    intro d tid t₁ ht₁ i hlt
    rw [h.usm hr] at ht₁
    have hgrown : ∀ {j : Nat}, j < t.fields.length + 1 →
        j < t'.fields.length := by
      intro j hj
      rw [hfields, List.length_append]
      exact hj
    rcases hheld.columns d tid t₁ ht₁ i hlt with ⟨t₂, ht₂, hi₂⟩ | howed
    · left
      by_cases hself : d = m.domainid ∧ tid = m.tableid
      · obtain ⟨rfl, rfl⟩ := hself
        obtain rfl := Option.some.inj (ht.symm.trans ht₂)
        exact ⟨t', hafter, hgrown (by omega)⟩
      · exact ⟨t₂, by rw [hother d tid hself]; exact ht₂, hi₂⟩
    · rcases h.owed_or hr howed with howed | ⟨m', hm', hmd, hmi⟩
      · exact .inr howed
      · obtain rfl : m = m' := by simpa using hm'
        obtain ⟨rfl, rfl⟩ := hmd
        have hsame : m.fieldid = (i : Int) := hmi
        exact .inl ⟨t', hafter, hgrown (by omega)⟩

/-- A message that is no column's name leaves the names. -/
theorem named (h : Arrives s s' n r msg domainid schema schema')
    (hr : r ≠ .userSchemaMgr)
    (hnames : schema'.fieldNameToId = schema.fieldNameToId)
    (hkind : ∀ m, msg ≠ .fieldname m) (hnamed : Named s r) : Named s' r := by
  refine hnamed.of_owed ?_ (h.usm hr) fun about ho =>
    h.owed hr (fun _ => hkind) ho
  intro d tid name
  by_cases hd : d = domainid
  · subst hd
    rw [h.change.fieldNameAt_after, h.change.fieldNameAt_before, hnames]
  · exact h.change.fieldNameAt_other (fun hu => hd hu.2) tid name

/-- A column's name is set to the number that has the column. -/
theorem named_fieldname {m : UserSchema}
    (h : Arrives s s' n r (.fieldname m) m.domainid schema schema')
    (hr : r ≠ .userSchemaMgr) (hnumbered : Numbered s) (hnamed : Named s r)
    (hnames : schema'.fieldNameToId = (schema.setFieldName m.tableid
      m.argstring m.fieldid).fieldNameToId)
    (hname : m.argstring = "" ∨ NameTrue s m)
    (hempty : m.argstring = "" → ∀ i,
      fieldNameAt s .userSchemaMgr m.domainid m.tableid "" = some i →
      i = m.fieldid) : Named s' r := by
  intro d tid t ht i c hc
  rw [h.usm hr] at ht
  have hchange := h.change
  have hnumber := (hnumbered d tid t ht i c hc).2
  by_cases hself : (d = m.domainid ∧ tid = m.tableid) ∧
      c.name = m.argstring
  · obtain ⟨⟨rfl, rfl⟩, hcname⟩ := hself
    left
    rw [hchange.fieldNameAt_after, hnames]
    show (if m.tableid = m.tableid ∧ c.name = m.argstring then
      some m.fieldid else _) = some (i : Int)
    rw [if_pos ⟨rfl, hcname⟩]
    rcases hname with hname | ⟨t₁, j, c₁, ht₁, hj, hc₁, hname₁⟩
    · rw [hcname, hname] at hnumber
      rw [← hempty hname _ hnumber]
    · have hnumber₁ := (hnumbered _ _ t₁ ht₁ j c₁ hc₁).2
      rw [hname₁, ← hcname, hnumber] at hnumber₁
      rw [hj, hnumber₁]
  · have hsame : fieldNameAt s' r d tid c.name =
        fieldNameAt s r d tid c.name := by
      by_cases hd : d = m.domainid
      · subst hd
        rw [hchange.fieldNameAt_after, hchange.fieldNameAt_before, hnames]
        exact if_neg fun hu => hself ⟨⟨rfl, hu.1⟩, hu.2⟩
      · exact hchange.fieldNameAt_other (fun hu => hd hu.2) tid c.name
    rw [hsame]
    rcases hnamed d tid t ht i c hc with hold | howed
    · exact .inl hold
    · rcases h.owed_or hr howed with howed | ⟨m', hm', hmi, hmn⟩
      · exact .inr howed
      · obtain rfl : m = m' := by simpa using hm'
        obtain ⟨⟨rfl, rfl⟩, _⟩ := hmi
        exact absurd ⟨⟨rfl, rfl⟩, hmn.symm⟩ hself

/-- The message is answered, or not. -/
theorem of_answered (hr : r ≠ .userSchemaMgr) {rest : List Message}
    (hmsg : s.chan (.transactionAgent n) r = msg :: rest) (reply : Message)
    (hschema : s.schemata r domainid = some schema)
    (hs' : s' = (State.setSchemata { s with
        chan := s.chan.pop (.transactionAgent n) r } r
        (Function.update (s.schemata r) domainid (some schema'))).send r
        (· = .transactionAgent n) reply) :
    Arrives s s' n r msg domainid schema schema' where
  change := .of_update hschema (by rw [hs']; rfl)
  pending := by rw [hs']; rfl
  counter := by rw [hs']; rfl
  keeps := by
    refine keepsMessages_pop hmsg fun x y msg' hmem => ?_
    rw [hs']
    show msg' ∈ (s.chan.pop (.transactionAgent n) r).send r
      (· = .transactionAgent n) reply x y
    exact Channels.mem_send_of_mem hmem
  asked n' := by
    rw [hs']
    show Proofs.asked (Channels.send (s.chan.pop _ _) _ _ _) n' = _
    rw [asked_send hr (by simp), asked_pop (by simp) hr]

theorem of_unanswered (hr : r ≠ .userSchemaMgr) {rest : List Message}
    (hmsg : s.chan (.transactionAgent n) r = msg :: rest)
    (hschema : s.schemata r domainid = some schema)
    (hs' : s' = State.setSchemata { s with
        chan := s.chan.pop (.transactionAgent n) r } r
        (Function.update (s.schemata r) domainid (some schema'))) :
    Arrives s s' n r msg domainid schema schema' where
  change := .of_update hschema (by rw [hs']; rfl)
  pending := by rw [hs']; rfl
  counter := by rw [hs']; rfl
  keeps := by
    refine keepsMessages_pop hmsg fun x y msg' hmem => ?_
    rw [hs']
    exact hmem
  asked n' := by
    rw [hs']
    exact asked_pop (by simp) hr n'

end Arrives

namespace SchemaInvariant

variable {top : Topology} {s : State} {n : Nat} {r : Actor}
  {m : UserSchema} {rest : List Message}

theorem exists_schema (h : SchemaInvariant top s) {d : Int}
    (hd : (s.schemata .userSchemaMgr d).isSome) (a : Actor) :
    ∃ schema, s.schemata a d = some schema := by
  rw [← h.domains a] at hd
  exact Option.isSome_iff_exists.mp hd

theorem isSome_of_tableAt {a : Actor} {d tid : Int} {t : Table}
    (h : tableAt s a d tid = some t) : (s.schemata a d).isSome := by
  unfold tableAt at h
  obtain ⟨schema, hschema, _⟩ := Option.bind_eq_some_iff.mp h
  rw [hschema]
  rfl

/-- The reply of a receiver is no answer any more. -/
theorem valid_reply {s' : State} {status : Status} {msg : UserSchema}
    (hr : r ≠ .userSchemaMgr) (hlater : Later s s')
    (hsettled : OperationSettled s n m.operationid)
    (hchan : s'.chan = (s.chan.pop (.transactionAgent n) r).send r
      (· = .transactionAgent n) (usmReply m.operationid status msg))
    (a b : Actor) (msg' : Message) (hmem : msg' ∈ s'.chan a b) :
    msg' ∈ s.chan a b ∨ Valid s' a b msg' := by
  rw [hchan] at hmem
  rcases Channels.mem_send.mp hmem with hmem | ⟨rfl, hb, rfl⟩
  · exact .inl (Channels.mem_of_mem_pop hmem)
  · obtain rfl : b = .transactionAgent n := by simpa using hb
    exact .inr (.reply hr (hlater.settled hsettled))

/-- A new table arrives. -/
theorem receive_createtable (h : SchemaInvariant top s) (uninit : UserSchema)
    (hmsg : s.chan (.transactionAgent n) r = .relay .createtable m :: rest)
    (hr : r ≠ .userSchemaMgr) (htrue : ChangeTrue s .createtable m)
    (hsettled : OperationSettled s n m.operationid) :
    ∃ schemata reply, createtable (s.schemata r) m uninit =
        some (schemata, reply) ∧
      SchemaInvariant top ((State.setSchemata { s with
          chan := s.chan.pop (.transactionAgent n) r } r schemata).send r
        (· = .transactionAgent n) reply) := by
  obtain ⟨t, ht⟩ := Option.isSome_iff_exists.mp htrue
  obtain ⟨schema, hschema⟩ := h.exists_schema (isSome_of_tableAt ht) r
  have hfresh : ∀ {status : Status} {schema' : Schema},
      schema.createTable m.tableid = (status, schema') →
      (∀ tid t, schema.tables tid = some t → schema'.tables tid = some t) ∧
      (∀ tid t', schema'.tables tid = some t' →
        schema.tables tid = some t' ∨
          t'.fields = [] ∧ tid = m.tableid) ∧
      (schema'.tables m.tableid).isSome ∧
      schema'.fieldNameToId = schema.fieldNameToId := by
    intro status schema' hcreate
    unfold Schema.createTable at hcreate
    cases hold : schema.tables m.tableid with
    | some t' =>
        rw [hold] at hcreate
        cases hcreate
        exact ⟨fun _ _ ht => ht, fun _ _ ht => .inl ht, by rw [hold]; rfl, rfl⟩
    | none =>
        rw [hold] at hcreate
        cases hcreate
        refine ⟨?_, ?_, ?_, rfl⟩
        · intro tid t' ht'
          dsimp only
          rw [Function.update_of_ne]
          · exact ht'
          · intro htid
            rw [htid, hold] at ht'
            cases ht'
        · intro tid t' ht'
          by_cases htid : tid = m.tableid
          · subst htid
            dsimp only at ht'
            rw [Function.update_self] at ht'
            cases ht'
            exact .inr ⟨rfl, rfl⟩
          · dsimp only at ht'
            rw [Function.update_of_ne htid] at ht'
            exact .inl ht'
        · dsimp only
          rw [Function.update_self]
          rfl
  obtain ⟨status, schema', hcreate⟩ : ∃ status schema',
      schema.createTable m.tableid = (status, schema') := ⟨_, _, rfl⟩
  obtain ⟨hkeep, honly, hsome, hnames⟩ := hfresh hcreate
  refine ⟨Function.update (s.schemata r) m.domainid (some schema'),
    usmReply m.operationid status
      { newMessage uninit with tableid := m.tableid }, ?_, ?_⟩
  · unfold createtable
    rw [hschema]
    simp only [Option.bind_eq_bind, Option.bind_some, hcreate]
  · have harrives : Arrives s _ n r _ m.domainid schema schema' :=
      .of_answered hr hmsg (usmReply m.operationid status
        { newMessage uninit with tableid := m.tableid }) hschema rfl
    refine harrives.invariant h hr ?_ ?_ ?_
    · exact valid_reply hr (harrives.later hr) hsettled rfl
    · intro hholds
      refine harrives.held hr (h.held r hholds) hkeep ?_ ?_ (by simp)
      · intro tid t' ht'
        rcases honly tid t' ht' with hold | ⟨hnil, rfl⟩
        · exact .inl hold
        · exact .inr ⟨hnil, htrue⟩
      · intro m' hm'
        obtain rfl : m = m' := by simpa using hm'
        exact ⟨rfl, hsome⟩
    · intro hta
      exact harrives.named hr hnames (by simp) (h.named r hta)

/-- A new column arrives, and is the next. -/
theorem receive_addcolumn (h : SchemaInvariant top s) (uninit : UserSchema)
    (name : String)
    (hmsg : s.chan (.transactionAgent n) r = .relay .addcolumn m :: rest)
    (hr : r ≠ .userSchemaMgr) (htrue : ChangeTrue s .addcolumn m)
    (hsettled : OperationSettled s n m.operationid) (hnext : NextColumn s r m) :
    ∃ schemata reply, addcolumn (s.schemata r) name m uninit =
        some (schemata, reply) ∧
      SchemaInvariant top ((State.setSchemata { s with
          chan := s.chan.pop (.transactionAgent n) r } r schemata).send r
        (· = .transactionAgent n) reply) := by
  obtain ⟨t, ht, hfieldid⟩ := hnext
  obtain ⟨tu, i, htu, hi, hcol⟩ := htrue
  obtain rfl : i = t.fields.length := by omega
  obtain ⟨schema, hschema⟩ :=
    Option.isSome_iff_exists.mp (isSome_of_tableAt ht)
  have htable : schema.tables m.tableid = some t := by
    rw [tableAt, hschema] at ht
    exact ht
  generalize ht' : t.addfield m.fieldtype m.fieldlen name m.indextype = added
  obtain ⟨fieldid, t'⟩ := added
  have hfields : t'.fields =
      t.fields ++ [⟨m.fieldtype, m.fieldlen, m.indextype, name⟩] := by
    rw [← fields_addfield, ht']
  generalize hschema' : schema.setTable m.tableid t' = schema'
  have htables : schema'.tables =
      Function.update schema.tables m.tableid (some t') := by
    rw [← hschema']
    rfl
  have hnames : schema'.fieldNameToId = schema.fieldNameToId := by
    rw [← hschema']
    rfl
  refine ⟨Function.update (s.schemata r) m.domainid (some schema'),
    usmReply m.operationid .ok { newMessage uninit with fieldid }, ?_, ?_⟩
  · unfold addcolumn
    rw [hschema]
    simp only [Option.bind_eq_bind, Option.bind_some, htable, ht', hschema']
  · have harrives : Arrives s _ n r _ m.domainid schema schema' :=
      .of_answered hr hmsg
        (usmReply m.operationid .ok { newMessage uninit with fieldid })
        hschema rfl
    refine harrives.invariant h hr ?_ ?_ ?_
    · exact valid_reply hr (harrives.later hr) hsettled rfl
    · intro hholds
      exact harrives.held_column hr (h.held r hholds) ht htables hfields
        hi htu hcol
    · intro hta
      exact harrives.named hr hnames (by simp) (h.named r hta)

theorem valid_pop {s' : State}
    (hchan : s'.chan = s.chan.pop (.transactionAgent n) r) (a b : Actor)
    (msg' : Message) (hmem : msg' ∈ s'.chan a b) :
    msg' ∈ s.chan a b ∨ Valid s' a b msg' := by
  rw [hchan] at hmem
  exact .inl (Channels.mem_of_mem_pop hmem)

/-- The name of a table arrives. -/
theorem receive_tablename (h : SchemaInvariant top s)
    (hmsg : s.chan (.transactionAgent n) r = .tablename m :: rest)
    (hr : r ≠ .userSchemaMgr)
    (hdomain : (s.schemata .userSchemaMgr m.domainid).isSome) :
    ∃ schemata, tablename (s.schemata r) m = some schemata ∧
      SchemaInvariant top (State.setSchemata { s with
          chan := s.chan.pop (.transactionAgent n) r } r schemata) := by
  obtain ⟨schema, hschema⟩ := h.exists_schema hdomain r
  refine ⟨Function.update (s.schemata r) m.domainid
    (some (schema.setTableName m.argstring m.tableid)), ?_, ?_⟩
  · unfold tablename
    rw [hschema]
    rfl
  · have harrives : Arrives s _ n r _ m.domainid schema
        (schema.setTableName m.argstring m.tableid) :=
      .of_unanswered hr hmsg hschema rfl
    refine harrives.invariant h hr (valid_pop rfl) ?_ ?_
    · intro hholds
      exact harrives.held hr (h.held r hholds) (fun _ _ ht => ht)
        (fun _ _ ht => .inl ht) (by simp) (by simp)
    · intro hta
      exact harrives.named hr rfl (by simp) (h.named r hta)

/-- The name of a column arrives, or no name at all after a refusal. -/
theorem receive_fieldname (h : SchemaInvariant top s)
    (hmsg : s.chan (.transactionAgent n) r = .fieldname m :: rest)
    (hr : r ≠ .userSchemaMgr)
    (hdomain : (s.schemata .userSchemaMgr m.domainid).isSome)
    (hname : m.argstring = "" ∨ NameTrue s m)
    (hempty : m.argstring = "" → ∀ i,
      fieldNameAt s .userSchemaMgr m.domainid m.tableid "" = some i →
      i = m.fieldid) :
    ∃ schemata, fieldname (s.schemata r) m = some schemata ∧
      SchemaInvariant top (State.setSchemata { s with
          chan := s.chan.pop (.transactionAgent n) r } r schemata) := by
  obtain ⟨schema, hschema⟩ := h.exists_schema hdomain r
  refine ⟨Function.update (s.schemata r) m.domainid
    (some (schema.setFieldName m.tableid m.argstring m.fieldid)), ?_, ?_⟩
  · unfold fieldname
    rw [hschema]
    rfl
  · have harrives : Arrives s _ n r _ m.domainid schema
        (schema.setFieldName m.tableid m.argstring m.fieldid) :=
      .of_unanswered hr hmsg hschema rfl
    refine harrives.invariant h hr (valid_pop rfl) ?_ ?_
    · intro hholds
      exact harrives.held hr (h.held r hholds) (fun _ _ ht => ht)
        (fun _ _ ht => .inl ht) (by simp) (by simp)
    · intro hta
      exact harrives.named_fieldname hr h.numbered (h.named r hta) rfl hname
        hempty

end SchemaInvariant

/-! ## Runs -/

namespace SchemaInvariant

variable {top : Topology} {s : State}

/-- The step lemma. -/
theorem deliver (h : SchemaInvariant top s) {snd rcv : Actor}
    {uninit : UserSchema} (hok : DeliversInOrder s (.deliver snd rcv uninit)) :
    ∃ s', s.deliver top snd rcv uninit = some s' ∧
      SchemaInvariant top s' := by
  unfold State.deliver
  cases hmsg : s.chan snd rcv with
  | nil => exact ⟨s, rfl, h⟩
  | cons msg rest =>
      have hv := h.valid snd rcv msg (by rw [hmsg]; exact List.mem_cons_self)
      simp only [DeliversInOrder, hmsg, List.head?_cons] at hok
      cases hv with
      | @request _ _ domainid req hdomain hasked =>
          obtain ⟨status, m, schemata, hhandle⟩ : ∃ status m schemata,
              UserSchemaMgr.handle (s.schemata .userSchemaMgr) domainid req
                uninit = (status, m, schemata) := ⟨_, _, _, rfl⟩
          refine ⟨_, ?_, h.receive_request hmsg hdomain hasked hhandle⟩
          simp only [State.receive, hhandle]
      | answer hdomain hasked hstatus hrefused =>
          exact ⟨_, rfl,
            h.receive_answer hmsg hdomain hasked hstatus hrefused⟩
      | reply hr hsettled =>
          exact ⟨_, rfl, h.receive_reply hmsg hr hsettled⟩
      | tablename hdomain =>
          obtain ⟨schemata, hname, hinv⟩ :=
            h.receive_tablename hmsg (by simp) hdomain
          refine ⟨_, ?_, hinv⟩
          simp only [State.receive, hname, Option.bind_eq_bind,
            Option.bind_some]
      | fieldname hdomain hname =>
          obtain ⟨schemata, hset, hinv⟩ :=
            h.receive_fieldname hmsg (by simp) hdomain hname hok
          refine ⟨_, ?_, hinv⟩
          simp only [State.receive, hset, Option.bind_eq_bind,
            Option.bind_some]
      | @relay _ _ builtincmd m hr htrue hsettled =>
          cases builtincmd with
          | createtable =>
              obtain ⟨schemata, reply, hcreate, hinv⟩ :=
                h.receive_createtable uninit hmsg hr htrue hsettled
              refine ⟨_, ?_, hinv⟩
              cases rcv with
              | userSchemaMgr => exact absurd rfl hr
              | transactionAgent k =>
                  simp only [State.receive, hcreate, Option.bind_eq_bind,
                    Option.bind_some]
              | engine k =>
                  simp only [State.receive, hcreate, Option.bind_eq_bind,
                    Option.bind_some]
          | addcolumn =>
              cases rcv with
              | userSchemaMgr => exact absurd rfl hr
              | transactionAgent k =>
                  obtain ⟨schemata, reply, hadd, hinv⟩ :=
                    h.receive_addcolumn uninit m.argstring hmsg hr htrue
                      hsettled hok
                  refine ⟨_, ?_, hinv⟩
                  simp only [State.receive, hadd, Option.bind_eq_bind,
                    Option.bind_some]
              | engine k =>
                  obtain ⟨schemata, reply, hadd, hinv⟩ :=
                    h.receive_addcolumn uninit "" hmsg hr htrue hsettled hok
                  refine ⟨_, ?_, hinv⟩
                  simp only [State.receive, hadd, Option.bind_eq_bind,
                    Option.bind_some]

theorem step (h : SchemaInvariant top s) {a : Action}
    (hok : DeliversInOrder s a) :
    ∃ s', Ref.Ddl.step top s a = some s' ∧ SchemaInvariant top s' := by
  cases a with
  | start n domainid req =>
      unfold Ref.Ddl.step
      dsimp only
      split
      · exact ⟨_, rfl, h.startcmd hok⟩
      · exact ⟨s, rfl, h⟩
  | deliver snd rcv uninit => exact h.deliver hok

theorem tableAt_init {domains : Int → Bool} {a : Actor} {d tid : Int} :
    tableAt (State.init domains) a d tid = none := by
  unfold tableAt State.init
  dsimp only
  split <;> rfl

theorem init (top : Topology) (domains : Int → Bool) :
    SchemaInvariant top (State.init domains) where
  domains _ _ := rfl
  numbered d tid t ht := by
    rw [tableAt_init] at ht
    cases ht
  valid a b msg hmsg := by cases hmsg
  operationsNodup n := List.nodup_nil
  counted n operationid o ho := by cases ho
  held r _ := by
    constructor <;> intro d tid t ht <;> rw [tableAt_init] at ht <;> cases ht
  named a _ d tid t ht := by
    rw [tableAt_init] at ht
    cases ht

end SchemaInvariant

/-- In every run that delivers in order no step goes through a null pointer,
and whenever nothing is on its way all actors agree. -/
theorem agree_of_deliversInOrder {top : Topology} {domains : Int → Bool}
    {as : List Action}
    (h : AllCalls (step top) DeliversInOrder (State.init domains) as) :
    AllDefined (step top) (fun s => Spec.Ddl.Quiet s → Agree top s)
      (State.init domains) as := by
  have hinv : AllDefined (step top) (SchemaInvariant top)
      (State.init domains) as :=
    h.allDefined (fun s a hok hinv => hinv.step hok) (.init top domains)
  exact hinv.imp fun s hs => hs.agree

/-! ## Runs of two agents -/

def twoAgents : Topology := ⟨2, 1⟩

def zeroed : UserSchema := ⟨0, 0, .ok, 0, 0, .int, 0, .none, ""⟩

def deliverFrom (pairs : List (Actor × Actor)) : List Action :=
  pairs.map fun p => .deliver p.1 p.2 zeroed

/-- All messages of a request of agent `n`. -/
def allMessages (n : Nat) : List (Actor × Actor) :=
  [(.transactionAgent n, .userSchemaMgr),
   (.userSchemaMgr, .transactionAgent n),
   (.transactionAgent n, .transactionAgent 0),
   (.transactionAgent n, .transactionAgent 1),
   (.transactionAgent n, .engine 0),
   (.transactionAgent n, .transactionAgent 0),
   (.transactionAgent n, .transactionAgent 1),
   (.transactionAgent 0, .transactionAgent n),
   (.transactionAgent 1, .transactionAgent n),
   (.engine 0, .transactionAgent n)]

/-- Two columns are added at once, through an agent each. Agent 1 hears of
the second one first. -/
def crossed : List Action :=
  .start 0 1 (.createtable "stock") :: deliverFrom (allMessages 0) ++
  [.start 0 1 (.addcolumn 1 "int" 0 "id" "unique"),
   .start 1 1 (.addcolumn 1 "char" 0 "class" "none")] ++
  deliverFrom
   [(.transactionAgent 0, .userSchemaMgr),
    (.transactionAgent 1, .userSchemaMgr),
    (.userSchemaMgr, .transactionAgent 0),
    (.userSchemaMgr, .transactionAgent 1),
    (.transactionAgent 0, .engine 0),
    (.transactionAgent 1, .engine 0),
    (.transactionAgent 0, .transactionAgent 0),
    (.transactionAgent 0, .transactionAgent 0),
    (.transactionAgent 1, .transactionAgent 0),
    (.transactionAgent 1, .transactionAgent 0),
    (.transactionAgent 1, .transactionAgent 1),
    (.transactionAgent 1, .transactionAgent 1),
    (.transactionAgent 0, .transactionAgent 1),
    (.transactionAgent 0, .transactionAgent 1),
    (.transactionAgent 0, .transactionAgent 0),
    (.transactionAgent 0, .transactionAgent 1),
    (.transactionAgent 1, .transactionAgent 0),
    (.transactionAgent 1, .transactionAgent 1),
    (.engine 0, .transactionAgent 0),
    (.engine 0, .transactionAgent 1)]

/-- All messages have arrived, and the columns are in different places. -/
theorem crossed_quiet : ∃ s,
    run (step twoAgents) (State.init (· == 1)) crossed = some s ∧
      Spec.Ddl.Quiet s ∧
      (tableAt s .userSchemaMgr 1 1).map (fun t => t.fields.map Column.type) =
        some [.int, .char] ∧
      (tableAt s (.transactionAgent 1) 1 1).map
        (fun t => t.fields.map Column.type) = some [.char, .int] := by
  refine ⟨_, rfl, ?_, rfl, rfl⟩
  intro a b
  match a, b with
  | .userSchemaMgr, .transactionAgent 0 => rfl
  | .userSchemaMgr, .transactionAgent 1 => rfl
  | .userSchemaMgr, .transactionAgent (_ + 2) => rfl
  | .userSchemaMgr, .userSchemaMgr => rfl
  | .userSchemaMgr, .engine _ => rfl
  | .transactionAgent 0, .userSchemaMgr => rfl
  | .transactionAgent 1, .userSchemaMgr => rfl
  | .transactionAgent (_ + 2), _ => rfl
  | .transactionAgent 0, .transactionAgent 0 => rfl
  | .transactionAgent 0, .transactionAgent 1 => rfl
  | .transactionAgent 0, .transactionAgent (_ + 2) => rfl
  | .transactionAgent 1, .transactionAgent 0 => rfl
  | .transactionAgent 1, .transactionAgent 1 => rfl
  | .transactionAgent 1, .transactionAgent (_ + 2) => rfl
  | .transactionAgent 0, .engine 0 => rfl
  | .transactionAgent 1, .engine 0 => rfl
  | .transactionAgent 0, .engine (_ + 1) => rfl
  | .transactionAgent 1, .engine (_ + 1) => rfl
  | .engine 0, .transactionAgent 0 => rfl
  | .engine 0, .transactionAgent 1 => rfl
  | .engine 0, .transactionAgent (_ + 2) => rfl
  | .engine 0, .userSchemaMgr => rfl
  | .engine 0, .engine _ => rfl
  | .engine (_ + 1), _ => rfl

theorem crossed_not_agree : ¬ AllDefined (step twoAgents)
    (fun s => Spec.Ddl.Quiet s → Agree twoAgents s) (State.init (· == 1))
    crossed := by
  intro h
  obtain ⟨s, hrun, hquiet, husm, hagent⟩ := crossed_quiet
  have hagree := h.at_end hrun hquiet
  have hfields := hagree.fields (.transactionAgent 1) rfl 1 1
  have htypes := congrArg (Option.map (List.map Prod.fst)) hfields
  rw [Option.map_map, Option.map_map] at htypes
  have hfst : (List.map Prod.fst ∘ fun t : Table => t.fields.map shape) =
      fun t => t.fields.map Column.type := by
    funext t
    rw [Function.comp_apply, List.map_map]
    rfl
  rw [hfst, husm, hagent] at htypes
  cases htypes

def oneAgent : Topology := ⟨1, 1⟩

/-- All messages of a request. -/
def oneRequest : List Action :=
  deliverFrom
   [(.transactionAgent 0, .userSchemaMgr),
    (.userSchemaMgr, .transactionAgent 0),
    (.transactionAgent 0, .transactionAgent 0),
    (.transactionAgent 0, .engine 0),
    (.transactionAgent 0, .transactionAgent 0),
    (.transactionAgent 0, .transactionAgent 0),
    (.engine 0, .transactionAgent 0)]

/-- A table and its first column. -/
def oneByOne : List Action :=
  .start 0 1 (.createtable "stock") :: oneRequest ++
  .start 0 1 (.addcolumn 1 "int" 0 "id" "unique") :: oneRequest

theorem agree_of_deliversInOrder_oneByOne :
    AllDefined (step oneAgent) (fun s => Spec.Ddl.Quiet s → Agree oneAgent s)
      (State.init (· == 1)) oneByOne := by
  refine agree_of_deliversInOrder ?_
  refine .cons rfl rfl (.cons rfl trivial (.cons rfl trivial
    (.cons rfl trivial (.cons rfl trivial (.cons rfl trivial
    (.cons rfl trivial (.cons rfl trivial (.cons rfl rfl
    (.cons rfl trivial (.cons rfl trivial (.cons rfl ⟨_, rfl, rfl⟩
    (.cons rfl ⟨_, rfl, rfl⟩ (.cons rfl ?_ (.cons rfl trivial
    (.cons rfl trivial trivial)))))))))))))))
  intro hname
  exact absurd hname (by decide)

end Infinisql.Proofs
