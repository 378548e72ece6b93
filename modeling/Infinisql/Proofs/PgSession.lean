import Infinisql.Lib.Run
import Infinisql.Spec.PgSession

/-!
# When a session serves its queries

Between two queries a session is idle, in a block or in a block that has
failed. While a statement runs it has a transaction, in a block or not, and
that is all the functions that end a query ask for: a rollback leaves it
idle or failed, an implicit commit idle, and each of them writes one
`ReadyForQuery`, last.

What a query does is then read off the few ways it can end, and compared with
what it is to do.
-/

namespace Infinisql.Proofs

open Infinisql.Lib
open Infinisql.Ref (PgState)
open Infinisql.Ref.Session Infinisql.Spec.Session

/-! ## How a query ends -/

/-- The session is established, with a transaction or without. -/
structure InTransaction (pg : Pg) (block : Bool) (tx : Option Nat) : Prop where
  pending : pg.pending = []
  autocommit : pg.session_isautocommit = true
  state : pg.state = .established
  transactionPtr : pg.transactionPtr = tx
  isintransactionblock : pg.isintransactionblock = block
  transactions : pg.transactions = tx.toList

theorem matches_idle_iff {pg : Pg} :
    Matches pg .idle ↔ InTransaction pg false none :=
  ⟨fun h => ⟨h.pending, h.autocommit, h.transaction.1, h.transaction.2.1,
      h.transaction.2.2.1, h.transaction.2.2.2⟩,
    fun h => ⟨h.pending, h.autocommit, h.state, h.transactionPtr,
      h.isintransactionblock, h.transactions⟩⟩

theorem matches_inBlock_iff {pg : Pg} {tx : Nat} :
    Matches pg (.inBlock tx) ↔ InTransaction pg true (some tx) :=
  ⟨fun h => ⟨h.pending, h.autocommit, h.transaction.1, h.transaction.2.1,
      h.transaction.2.2.1, h.transaction.2.2.2⟩,
    fun h => ⟨h.pending, h.autocommit, h.state, h.transactionPtr,
      h.isintransactionblock, h.transactions⟩⟩

def NotReady (replies : List Reply) : Prop :=
  ∀ r ∈ replies, isReadyForQuery r = false

/-- A query has been answered, with these effects. -/
structure Answers (pg : Pg) (effects : List Effect) (t : TxState) (pg' : Pg) :
    Prop where
  sent : ∃ replies, NotReady replies ∧
    pg'.sent = pg.sent ++ (replies ++ [.readyForQuery t.status])
  effects : pg'.effects = pg.effects ++ effects
  leads : Matches pg' t

theorem filter_isReadyForQuery {replies : List Reply} {c : Char}
    (h : NotReady replies) :
    (replies ++ [Reply.readyForQuery c]).filter isReadyForQuery =
      [.readyForQuery c] := by
  rw [List.filter_append, List.filter_eq_nil_iff.mpr]
  · rfl
  · intro r hr
    rw [h r hr]
    decide

theorem Answers.next {pg pg' : Pg} {a : Ask} {t t' : TxState}
    {effects : List Effect} (h : Answers pg effects t' pg')
    (hserve : serve t a.query a.outcome pg.nexttransactionid =
      (effects, t')) : (exchange pg a pg').next t = some t' := by
  obtain ⟨replies, hready, hsent⟩ := h.sent
  unfold Exchange.next exchange
  dsimp only
  rw [hserve, h.effects, hsent, List.drop_left, List.drop_left]
  exact if_pos ⟨rfl, filter_isReadyForQuery hready⟩

/-- The replies so far, and then `ReadyForQuery`. -/
theorem Answers.write {pg pg₁ : Pg} {effects : List Effect} {t : TxState}
    (hsent : pg₁.sent = pg.sent) (hready : NotReady pg₁.outbuf)
    (heffects : pg₁.effects = pg.effects ++ effects) (hleads : Matches pg₁ t) :
    Answers pg effects t pg₁.writesocket := by
  have hwrite : pg₁.writesocket = { pg₁ with
      sent := pg₁.sent ++ (pg₁.outbuf ++ [.readyForQuery t.status])
      outbuf := [] } := by
    have htransaction := hleads.transaction
    unfold Pg.writesocket Pg.put
    cases t with
    | idle =>
        rw [if_pos htransaction.1, if_pos htransaction.2.1]
        rfl
    | inBlock tx =>
        rw [if_pos htransaction.1, htransaction.2.1]
        rfl
    | aborted =>
        rw [if_neg (by rw [htransaction.1]; decide), if_pos htransaction.1]
        rfl
  rw [hwrite]
  exact ⟨⟨pg₁.outbuf, hready, by rw [hsent]⟩, heffects,
    ⟨hleads.pending, hleads.autocommit, hleads.transaction⟩⟩

theorem notReady_nil : NotReady [] := fun _ h => absurd h (by simp)

theorem notReady_concat {replies : List Reply} {r : Reply}
    (h : NotReady replies) (hr : isReadyForQuery r = false) :
    NotReady (replies ++ [r]) := by
  intro r' hr'
  rcases List.mem_append.mp hr' with hr' | hr'
  · exact h r' hr'
  · rw [List.mem_singleton.mp hr']
    exact hr

theorem Answers.error {pg pg₁ : Pg} {effects : List Effect} {t : TxState}
    {severity code message : String} (hsent : pg₁.sent = pg.sent)
    (hready : NotReady pg₁.outbuf)
    (heffects : pg₁.effects = pg.effects ++ effects) (hleads : Matches pg₁ t) :
    Answers pg effects t (pg₁.putErrorResponse severity code message) :=
  (Answers.write hsent (notReady_concat hready rfl) heffects
    ⟨hleads.pending, hleads.autocommit, hleads.transaction⟩ :
      Answers pg effects t (pg₁.put _).writesocket)

theorem errorStatus_eq (pg : Pg) (status : Int) : ∃ code message,
    pg.errorStatus status = pg.putErrorResponse "ERROR" code message := by
  unfold Pg.errorStatus
  split
  · exact ⟨_, _, rfl⟩
  · split
    · exact ⟨_, _, rfl⟩
    · split <;> exact ⟨_, _, rfl⟩

/-! ## Rollback and commit -/

/-- The state an implicit rollback leaves. -/
def afterRollback (block : Bool) : TxState :=
  if block then .aborted else .idle

/-- An implicit rollback drops what was to be sent. -/
structure RolledBack (pg : Pg) (block : Bool) (tx : Option Nat) (pg' : Pg) :
    Prop where
  sent : pg'.sent = pg.sent
  outbuf : pg'.outbuf = []
  effects : pg'.effects = pg.effects ++ tx.toList.map .rolledBack
  leads : Matches pg' (afterRollback block)

theorem sqlrollbackimplicit_spec (pg : Pg) {block : Bool} {tx : Option Nat}
    (h : InTransaction pg block tx) :
    RolledBack pg block tx pg.sqlrollbackimplicit := by
  obtain ⟨hpending, hauto, hstate, htx, hblock, htransactions⟩ := h
  unfold Pg.sqlrollbackimplicit Pg.continuePgRollbackimplicit
    Pg.deleteTransaction Pg.rollback
  cases block <;> cases tx <;> simp only [hblock, htx, if_true, if_false,
    Bool.false_eq_true]
  case false.none =>
    exact ⟨rfl, rfl, (List.append_nil _).symm,
      ⟨hpending, hauto, hstate, rfl, rfl, htransactions⟩⟩
  case false.some tx =>
    exact ⟨rfl, rfl, rfl, ⟨hpending, hauto, hstate, rfl, rfl,
      by simp [htransactions]⟩⟩
  case true.none =>
    exact ⟨rfl, rfl, (List.append_nil _).symm,
      ⟨hpending, hauto, rfl, rfl, rfl, htransactions⟩⟩
  case true.some tx =>
    exact ⟨rfl, rfl, rfl, ⟨hpending, hauto, rfl, rfl, rfl,
      by simp [htransactions]⟩⟩

theorem failed_answers (pg : Pg) {block : Bool} {tx : Option Nat}
    (h : InTransaction pg block tx) (status : Int) :
    Answers pg (tx.toList.map .rolledBack) (afterRollback block)
      (pg.failed status) := by
  have hback := sqlrollbackimplicit_spec pg h
  obtain ⟨code, message, heq⟩ := errorStatus_eq pg.sqlrollbackimplicit status
  unfold Pg.failed
  rw [heq]
  exact .error hback.sent (by rw [hback.outbuf]; exact notReady_nil)
    hback.effects hback.leads

/-- The state after a statement that has succeeded. -/
def afterOk (block : Bool) (tx : Option Nat) : TxState :=
  match block, tx with
  | true, some tx => .inBlock tx
  | _, _ => .idle

theorem settle_of_nil {pg : Pg} (h : pg.pending = [])
    (outcome : Option (Int × Nat)) : pg.settle outcome = some pg := by
  unfold Pg.settle
  rw [h]

theorem settle_of_matches {pg : Pg} {t : TxState} (h : Matches pg t)
    (outcome : Option (Int × Nat)) : pg.settle outcome = some pg :=
  settle_of_nil h.pending outcome

/-- A statement that has succeeded is answered, in a block at once and else
after its commit. -/
theorem finish_answers {pg : Pg} {block : Bool} {tx : Option Nat}
    (h : InTransaction pg block tx) (hblock : block = true → tx ≠ none)
    (hready : NotReady pg.outbuf) (o : Int × Nat) : ∃ pg',
    pg.finish.settle (some o) = some pg' ∧
      Answers pg (if block then [] else tx.toList.map .committed)
        (afterOk block tx) pg' := by
  have hall := h
  obtain ⟨hpending, hauto, hstate, htx, hinblock, htransactions⟩ := h
  unfold Pg.finish
  rw [hauto, hinblock]
  cases block with
  | true =>
      cases tx with
      | none => exact absurd rfl (hblock rfl)
      | some tx =>
          have hanswers : Answers pg [] (.inBlock tx) pg.writesocket :=
            .write rfl hready (List.append_nil _).symm
              (matches_inBlock_iff.mpr hall)
          exact ⟨_, settle_of_matches hanswers.leads _, hanswers⟩
  | false =>
      rw [if_pos (show (!false && (true || pg.command_autocommit)) = true
        from rfl)]
      unfold Pg.sqlcommitimplicit
      rw [htx]
      cases tx with
      | none =>
          have hsame : pg.deleteTransaction = pg := by
            unfold Pg.deleteTransaction
            rw [htx]
          have hanswers : Answers pg [] .idle pg.continuePgCommitimplicit := by
            unfold Pg.continuePgCommitimplicit
            rw [hsame]
            exact .write rfl hready (List.append_nil _).symm
              (matches_idle_iff.mpr hall)
          exact ⟨_, settle_of_matches hanswers.leads _, hanswers⟩
      | some tx =>
          have hsettle : (pg.commit tx .commitimplicit).settle (some o) =
              some { pg with
                effects := pg.effects ++ [Effect.committed tx]
                pending := [] }.continuePgCommitimplicit := by
            unfold Pg.commit Pg.settle
            rw [hpending]
            rfl
          refine ⟨_, hsettle, ?_⟩
          unfold Pg.continuePgCommitimplicit Pg.deleteTransaction
          dsimp only
          rw [htx]
          exact .write rfl hready rfl ⟨rfl, hauto, hstate, rfl, hinblock,
            by simp [htransactions]⟩

/-! ## A statement comes back -/

theorem Answers.congr {pg pg₁ pg' : Pg} {effects : List Effect} {t : TxState}
    (h : Answers pg₁ effects t pg') (hsent : pg₁.sent = pg.sent)
    (heffects : pg₁.effects = pg.effects) : Answers pg effects t pg' :=
  ⟨by rw [← hsent]; exact h.sent, by rw [← heffects]; exact h.effects,
    h.leads⟩

theorem notReady_dataRows (n : Nat) : NotReady (List.replicate n .dataRow) := by
  intro r hr
  rw [List.eq_of_mem_replicate hr]
  rfl

theorem notReady_append {replies replies' : List Reply} (h : NotReady replies)
    (h' : NotReady replies') : NotReady (replies ++ replies') := by
  intro r hr
  rcases List.mem_append.mp hr with hr | hr
  · exact h r hr
  · exact h' r hr

theorem notReady_putRows {pg : Pg} (h : NotReady pg.outbuf) :
    NotReady pg.putRows.outbuf :=
  notReady_concat (notReady_append (notReady_concat h rfl)
    (notReady_dataRows _)) rfl

/-- The types whose statements come back to a commit or a rollback. -/
def Cmd.comesBack (type : Cmd) : Bool :=
  type.isTransactional || type = .storedprocedure

/-- What is done in the end for a statement in a transaction. -/
def effectsOf (block : Bool) (tx : Option Nat) (status : Int) : List Effect :=
  if status = 0 then if block then [] else tx.toList.map .committed
  else tx.toList.map .rolledBack

def stateOf (block : Bool) (tx : Option Nat) (status : Int) : TxState :=
  if status = 0 then afterOk block tx else afterRollback block

theorem continuePgFunc_answers (pg : Pg) (block : Bool) (tx : Option Nat)
    (h : InTransaction { pg with transactionPtr := pg.results.transactionPtr }
      block tx)
    (hblock : block = true → tx ≠ none) (houtbuf : NotReady pg.outbuf)
    (htype : Cmd.comesBack pg.results.cmdtype = true) (o : Int × Nat) : ∃ pg',
    pg.continuePgFunc.settle (some o) = some pg' ∧
      Answers pg (effectsOf block tx pg.results.statementStatus)
        (stateOf block tx pg.results.statementStatus) pg' := by
  generalize hpg₁ : ({ pg with
    transactionPtr := pg.results.transactionPtr } : Pg) = pg₁ at h
  have hsent : pg₁.sent = pg.sent := by rw [← hpg₁]
  have heffects : pg₁.effects = pg.effects := by rw [← hpg₁]
  have hresults : pg₁.results = pg.results := by rw [← hpg₁]
  have hready : NotReady pg₁.outbuf := by
    rw [← hpg₁]
    exact houtbuf
  have hok : ∀ pg₂ : Pg, InTransaction pg₂ block tx → NotReady pg₂.outbuf →
      pg₂.sent = pg₁.sent → pg₂.effects = pg₁.effects →
      ∃ pg', pg₂.finish.settle (some o) = some pg' ∧
        Answers pg (effectsOf block tx 0) (stateOf block tx 0) pg' := by
    intro pg₂ h₂ hready₂ hsent₂ heffects₂
    obtain ⟨pg', hsettle, hanswers⟩ := finish_answers h₂ hblock hready₂ o
    exact ⟨pg', hsettle, hanswers.congr (hsent₂.trans hsent)
      (heffects₂.trans heffects)⟩
  have hfail : ∀ status status', status ≠ 0 →
      ∃ pg', (pg₁.failed status').settle (some o) = some pg' ∧
        Answers pg (effectsOf block tx status) (stateOf block tx status)
          pg' := by
    intro status status' hne
    have hanswers := failed_answers pg₁ h status'
    unfold effectsOf stateOf
    rw [if_neg hne, if_neg hne]
    exact ⟨_, settle_of_matches hanswers.leads _,
      hanswers.congr hsent heffects⟩
  have hput : ∀ tag, ∃ pg',
      (pg₁.putCommandComplete tag).finish.settle (some o) = some pg' ∧
        Answers pg (effectsOf block tx 0) (stateOf block tx 0) pg' := by
    intro tag
    exact hok _ ⟨h.pending, h.autocommit, h.state, h.transactionPtr,
      h.isintransactionblock, h.transactions⟩
      (notReady_concat hready rfl) rfl rfl
  have hrows : ∃ pg', pg₁.putRows.finish.settle (some o) = some pg' ∧
      Answers pg (effectsOf block tx 0) (stateOf block tx 0) pg' :=
    hok _ ⟨h.pending, h.autocommit, h.state, h.transactionPtr,
      h.isintransactionblock, h.transactions⟩ (notReady_putRows hready) rfl rfl
  unfold Pg.continuePgFunc
  rw [hpg₁]
  dsimp only
  rw [hresults]
  by_cases hstatus : pg.results.statementStatus = 0
  · rw [hstatus]
    cases hcmd : pg.results.cmdtype <;> rw [hcmd] at htype
    case select => exact hrows
    case insert => exact hput _
    case update => exact hput _
    case delete => exact hput _
    case storedprocedure => exact hrows
    all_goals cases htype
  · cases hcmd : pg.results.cmdtype <;> rw [hcmd] at htype <;> dsimp only
    case select => rw [if_neg hstatus]; exact hfail _ _ hstatus
    case insert => rw [if_neg hstatus]; exact hfail _ _ hstatus
    case update => rw [if_neg hstatus]; exact hfail _ _ hstatus
    case delete => rw [if_neg hstatus]; exact hfail _ _ hstatus
    case storedprocedure => rw [if_neg hstatus]; exact hfail _ _ hstatus
    all_goals cases htype

/-- What the session waits for comes back, and a commit after it. -/
theorem returns_answers (pg : Pg) (block : Bool) {tx : Nat}
    {stmt : Statement} (htype : stmt.type.isTransactional = true)
    (hcmd : pg.results.cmdtype = stmt.type)
    (h : InTransaction { pg with transactionPtr := some tx } block (some tx))
    (hready : NotReady pg.outbuf) (o : Int × Nat) : ∃ pg',
    (pg.returns (.statement stmt (some tx)) o.1 o.2).settle (some o) =
      some pg' ∧
      Answers pg (effectsOf block (some tx) o.1)
        (stateOf block (some tx) o.1) pg' := by
  have hcomes : Cmd.comesBack stmt.type = true := by
    unfold Cmd.comesBack
    rw [htype]
    rfl
  have hblock : block = true → some tx ≠ none := fun _ => by simp
  have hback : ∀ results : Results, results.transactionPtr = some tx →
      results.cmdtype = stmt.type → results.statementStatus = o.1 → ∃ pg',
      ({ pg with results } : Pg).continuePgFunc.settle (some o) = some pg' ∧
        Answers pg (effectsOf block (some tx) o.1)
          (stateOf block (some tx) o.1) pg' := by
    intro results htx hcmd' hstatus
    obtain ⟨pg', hsettle, hanswers⟩ := continuePgFunc_answers
      { pg with results } block (some tx)
      (by
        dsimp only
        rw [htx]
        exact ⟨h.pending, h.autocommit, h.state, rfl,
          h.isintransactionblock, h.transactions⟩)
      hblock hready (by rw [hcmd']; exact hcomes) o
    rw [hstatus] at hanswers
    exact ⟨pg', hsettle, hanswers.congr rfl rfl⟩
  unfold Pg.returns
  dsimp only
  by_cases hstatus : o.1 = 0
  · rw [if_pos hstatus]
    unfold Pg.reenterOk Pg.reenter
    cases htype' : stmt.type <;> rw [htype'] at htype
    case select => exact hback _ rfl htype'.symm hstatus.symm
    case insert => exact hback _ rfl htype'.symm hstatus.symm
    case update => exact hback _ rfl htype'.symm hstatus.symm
    case delete => exact hback _ rfl htype'.symm hstatus.symm
    all_goals cases htype
  · rw [if_neg hstatus]
    exact hback _ rfl hcmd rfl

/-- The session while a statement runs: its transaction is that of the
session, or a new one. -/
def running (pg : Pg) (tx : Option Nat) (stmt : Statement) : Pg :=
  { pg with
    outbuf := []
    results := { cmdtype := stmt.type }
    command_autocommit := tx.isNone
    transactions := [tx.getD pg.nexttransactionid]
    nexttransactionid :=
      tx.elim (pg.nexttransactionid + 1) fun _ => pg.nexttransactionid
    pending := [.statement stmt (some (tx.getD pg.nexttransactionid))]
    effects := pg.effects ++
      ((tx.elim [Effect.began pg.nexttransactionid] fun _ => []) ++
        [Effect.executed (tx.getD pg.nexttransactionid) stmt.type]) }

theorem cont_transactional {pg : Pg} {block : Bool} {tx : Option Nat}
    {stmt : Statement} (h : InTransaction pg block tx)
    (htype : stmt.type.isTransactional = true)
    (hresolves : stmt.resolves = true)
    (hcomplete : stmt.type = .insert → stmt.complete = true) :
    pg.cont (some stmt) = some (running pg tx stmt) := by
  have hexecute : ∀ pg₁ : Pg, pg₁.execute stmt = some ({ pg₁ with
      results := { pg₁.results with cmdtype := stmt.type }
      }.executeInTransaction stmt) := by
    intro pg₁
    unfold Pg.execute
    cases htype' : stmt.type <;> rw [htype'] at htype hcomplete
    case insert =>
      dsimp only
      rw [if_pos (hcomplete rfl)]
    all_goals cases htype
  unfold Pg.cont Pg.executeStatement running
  rw [h.state]
  dsimp only
  rw [if_neg (by rw [hresolves]; simp), hexecute]
  unfold Pg.executeInTransaction Pg.newTransaction
  dsimp only
  rw [h.transactionPtr, h.pending, h.transactions]
  cases tx with
  | none => simp
  | some tx => simp

theorem answer_transactional {pg : Pg} {block : Bool} {tx : Option Nat}
    {stmt : Statement} (h : InTransaction pg block tx)
    (htype : stmt.type.isTransactional = true)
    (hresolves : stmt.resolves = true)
    (hcomplete : stmt.type = .insert → stmt.complete = true)
    (o : Int × Nat) : ∃ pg', pg.answer (some stmt) (some o) = some pg' ∧
      Answers pg ((tx.elim [.began pg.nexttransactionid] fun _ => []) ++
          .executed (tx.getD pg.nexttransactionid) stmt.type ::
          effectsOf block (some (tx.getD pg.nexttransactionid)) o.1)
        (stateOf block (some (tx.getD pg.nexttransactionid)) o.1) pg' := by
  obtain ⟨pg', hsettle, hanswers⟩ := returns_answers
    { running pg tx stmt with pending := [] } block htype rfl
    ⟨rfl, h.autocommit, h.state, rfl, h.isintransactionblock, rfl⟩
    notReady_nil o
  refine ⟨pg', ?_, hanswers.sent, ?_, hanswers.leads⟩
  · unfold Pg.answer
    rw [cont_transactional h htype hresolves hcomplete]
    exact hsettle
  · rw [hanswers.effects]
    unfold running
    simp only [List.append_assoc, List.cons_append, List.nil_append]

/-! ## The other queries -/

/-- What a query does without waiting. -/
theorem answer_of_cont {pg pg' : Pg} {t : TxState} {effects : List Effect}
    {query : Option Statement} (hcont : pg.cont query = some pg')
    (h : Answers pg effects t pg') (outcome : Option (Int × Nat)) :
    pg.answer query outcome = some pg' := by
  unfold Pg.answer
  rw [hcont]
  simp only [Option.bind_eq_bind, Option.bind_some,
    settle_of_matches h.leads]

/-- A statement that is not there to be run ends in a rollback. -/
theorem answer_unresolved {pg : Pg} {block : Bool} {tx : Option Nat}
    {stmt : Statement} (h : InTransaction pg block tx)
    (htype : stmt.type.isTransactional = true)
    (hresolves : stmt.resolves = false) (outcome : Option (Int × Nat)) :
    ∃ pg', pg.answer (some stmt) outcome = some pg' ∧
      Answers pg (tx.toList.map .rolledBack) (afterRollback block) pg' := by
  have hback := sqlrollbackimplicit_spec { pg with outbuf := [] }
    ⟨h.pending, h.autocommit, h.state, h.transactionPtr,
      h.isintransactionblock, h.transactions⟩
  have hanswers : Answers pg (tx.toList.map .rolledBack) (afterRollback block)
      (({ pg with outbuf := [] } : Pg).sqlrollbackimplicit.putErrorResponse
        "ERROR" "42704" "table or column does not exist") :=
    .error hback.sent (by rw [hback.outbuf]; exact notReady_nil) hback.effects
      hback.leads
  refine ⟨_, answer_of_cont ?_ hanswers outcome, hanswers⟩
  unfold Pg.cont Pg.executeStatement
  rw [h.state]
  dsimp only
  rw [if_pos (by rw [htype, hresolves]; rfl)]

/-- Text that does not parse leaves the state. -/
theorem answer_syntax {pg : Pg} {t : TxState} (h : Matches pg t)
    (hstate : pg.state = .established) (outcome : Option (Int × Nat)) :
    ∃ pg', pg.answer none outcome = some pg' ∧ Answers pg [] t pg' := by
  have hanswers : Answers pg [] t
      (({ pg with outbuf := [] } : Pg).putErrorResponse "ERROR" "42601"
        "syntax error") :=
    .error rfl notReady_nil (List.append_nil _).symm
      ⟨h.pending, h.autocommit, h.transaction⟩
  refine ⟨_, answer_of_cont ?_ hanswers outcome, hanswers⟩
  unfold Pg.cont Pg.executeStatement
  rw [hstate]

/-- A block that has failed is ended by `COMMIT` or `ROLLBACK` only. -/
theorem answer_aborted {pg : Pg} (h : Matches pg .aborted)
    (query : Option Statement) (outcome : Option (Int × Nat)) (n : Nat) :
    ∃ pg', pg.answer query outcome = some pg' ∧
      Answers pg (serve .aborted query outcome n).1
        (serve .aborted query outcome n).2 pg' := by
  have hstart : Matches ({ pg with outbuf := [] } : Pg) .aborted :=
    ⟨h.pending, h.autocommit, h.transaction⟩
  obtain ⟨hstate, htx, _, htransactions⟩ := h.transaction
  have hcont : pg.cont query =
      some (({ pg with outbuf := [] } : Pg).contAborted query) := by
    unfold Pg.cont
    rw [hstate]
  have hanswers : Answers pg (serve .aborted query outcome n).1
      (serve .aborted query outcome n).2
      (({ pg with outbuf := [] } : Pg).contAborted query) := by
    unfold Pg.contAborted serve serveAborted
    cases query with
    | none => exact .error rfl notReady_nil (List.append_nil _).symm hstart
    | some stmt =>
        dsimp only
        by_cases hend : stmt.type = .commit ∨ stmt.type = .rollback
        · rw [if_pos hend, if_pos hend]
          exact .write rfl (notReady_concat notReady_nil rfl)
            (List.append_nil _).symm
            ⟨h.pending, h.autocommit, rfl, htx, rfl, htransactions⟩
        · rw [if_neg hend, if_neg hend]
          exact .error rfl notReady_nil (List.append_nil _).symm hstart
  exact ⟨_, answer_of_cont hcont hanswers outcome, hanswers⟩

/-- The session when a statement has come back without waiting. -/
def cameBack (pg : Pg) (type : Cmd) (status : Int) : Pg :=
  { pg with
    outbuf := []
    results := { cmdtype := type, transactionPtr := pg.transactionPtr
                 statementStatus := status }
    command_autocommit := pg.transactionPtr.isNone }

theorem cont_established {pg : Pg} {stmt : Statement}
    (hstate : pg.state = .established)
    (htype : stmt.type.isTransactional = false) :
    pg.cont (some stmt) = { pg with
      outbuf := []
      results := {}
      command_autocommit := pg.transactionPtr.isNone }.execute stmt := by
  unfold Pg.cont Pg.executeStatement
  rw [hstate]
  dsimp only
  rw [htype, Bool.false_and, if_neg Bool.false_ne_true]

/-- `BEGIN`, `COMMIT` and `ROLLBACK` come back at once. -/
theorem cont_block {pg : Pg} {stmt : Statement}
    (hstate : pg.state = .established) (htype : stmt.type = .begin ∨
      stmt.type = .commit ∨ stmt.type = .rollback) :
    pg.cont (some stmt) = some (cameBack pg stmt.type 0).continuePgFunc := by
  rcases htype with htype | htype | htype <;>
    rw [cont_established hstate (by rw [htype]; rfl)] <;>
    unfold Pg.execute <;> rw [htype] <;> rfl

/-- So does what cannot be executed. -/
theorem cont_refused {pg : Pg} {stmt : Statement}
    (hstate : pg.state = .established)
    (htype : stmt.type.isTransactional = false)
    (hblock : stmt.type ≠ .begin ∧ stmt.type ≠ .commit ∧
      stmt.type ≠ .rollback)
    (hloaded : stmt.type = .storedprocedure → stmt.loaded = false) :
    pg.cont (some stmt) = some (cameBack pg stmt.type 1).continuePgFunc := by
  rw [cont_established hstate htype]
  unfold Pg.execute
  cases hcmd : stmt.type <;> rw [hcmd] at htype hblock hloaded
  case begin => exact absurd rfl hblock.1
  case commit => exact absurd rfl hblock.2.1
  case rollback => exact absurd rfl hblock.2.2
  case storedprocedure =>
    dsimp only
    rw [if_neg (by rw [hloaded rfl]; simp)]
    rfl
  case select => cases htype
  case insert => cases htype
  case update => cases htype
  case delete => cases htype
  all_goals rfl

/-- `BEGIN` starts a transaction, unless there is one. -/
theorem answer_begin {pg : Pg} {block : Bool} {tx : Option Nat}
    {stmt : Statement} (h : InTransaction pg block tx)
    (hblock : block = true ↔ tx ≠ none) (htype : stmt.type = .begin)
    (outcome : Option (Int × Nat)) :
    ∃ pg', pg.answer (some stmt) outcome = some pg' ∧
      Answers pg (tx.elim [.began pg.nexttransactionid] fun _ => [])
        (.inBlock (tx.getD pg.nexttransactionid)) pg' := by
  have hcont := cont_block h.state (.inl htype)
  have hanswers : Answers pg
      (tx.elim [.began pg.nexttransactionid] fun _ => [])
      (.inBlock (tx.getD pg.nexttransactionid))
      (cameBack pg stmt.type 0).continuePgFunc := by
    unfold Pg.continuePgFunc cameBack
    rw [htype]
    dsimp only
    rw [h.transactionPtr]
    cases tx with
    | none =>
        refine .write rfl (notReady_concat notReady_nil rfl) rfl
          ⟨h.pending, h.autocommit, h.state, rfl, rfl, ?_⟩
        show pg.transactions ++ [pg.nexttransactionid] = _
        rw [h.transactions]
        rfl
    | some tx =>
        exact .write rfl
          (notReady_concat (notReady_concat notReady_nil rfl) rfl)
          (List.append_nil _).symm ⟨h.pending, h.autocommit, h.state, rfl,
            h.isintransactionblock.trans (hblock.mpr (by simp)),
            h.transactions⟩
  exact ⟨_, answer_of_cont hcont hanswers outcome, hanswers⟩

/-- `COMMIT` and `ROLLBACK` where there is no block. -/
theorem answer_end_idle {pg : Pg} {stmt : Statement}
    (h : InTransaction pg false none)
    (htype : stmt.type = .commit ∨ stmt.type = .rollback)
    (outcome : Option (Int × Nat)) :
    ∃ pg', pg.answer (some stmt) outcome = some pg' ∧
      Answers pg [] .idle pg' := by
  have hcont := cont_block h.state (.inr htype)
  have hanswers : Answers pg [] .idle
      (cameBack pg stmt.type 0).continuePgFunc := by
    unfold Pg.continuePgFunc cameBack
    rcases htype with htype | htype <;> rw [htype] <;> dsimp only <;>
      rw [h.transactionPtr] <;>
      exact .write rfl (notReady_concat (notReady_concat notReady_nil rfl) rfl)
        (List.append_nil _).symm ⟨h.pending, h.autocommit, h.state, rfl,
          h.isintransactionblock, h.transactions⟩
  exact ⟨_, answer_of_cont hcont hanswers outcome, hanswers⟩

theorem Answers.clear {pg pg' : Pg} {effects : List Effect} {t : TxState}
    (h : Answers pg effects t pg') :
    Answers pg effects t { pg' with outbuf := [] } :=
  ⟨h.sent, h.effects,
    ⟨h.leads.pending, h.leads.autocommit, h.leads.transaction⟩⟩

theorem deleteTransaction_eq {pg : Pg} (tx : Nat)
    (h : pg.transactionPtr = some tx) : pg.deleteTransaction = { pg with
      transactions := pg.transactions.erase tx
      transactionPtr := none } := by
  unfold Pg.deleteTransaction
  rw [h]

theorem answer_rollback {pg : Pg} {tx : Nat} {stmt : Statement}
    (h : InTransaction pg true (some tx)) (htype : stmt.type = .rollback)
    (outcome : Option (Int × Nat)) :
    ∃ pg', pg.answer (some stmt) outcome = some pg' ∧
      Answers pg [.rolledBack tx] .idle pg' := by
  have hcont := cont_block h.state (.inr (.inr htype))
  have hanswers : Answers pg [.rolledBack tx] .idle
      (cameBack pg stmt.type 0).continuePgFunc := by
    unfold Pg.continuePgFunc cameBack
    rw [htype]
    dsimp only
    rw [h.transactionPtr]
    dsimp only
    unfold Pg.sqlrollbackexplicit Pg.continuePgRollbackexplicit
    refine Answers.clear ?_
    rw [deleteTransaction_eq tx rfl]
    exact .write rfl (notReady_concat notReady_nil rfl) rfl
      ⟨h.pending, h.autocommit, h.state, rfl, rfl,
        by simp [Pg.putCommandComplete, Pg.put, Pg.rollback,
          h.transactions]⟩
  exact ⟨_, answer_of_cont hcont hanswers outcome, hanswers⟩

/-- The session while the commit of its block runs. -/
def committing (pg : Pg) (tx : Nat) : Pg :=
  { pg with
    transactionPtr := some tx
    outbuf := []
    results := { cmdtype := .commit, transactionPtr := some tx }
    command_autocommit := false
    isintransactionblock := false
    effects := pg.effects ++ [Effect.committed tx]
    pending := [.commitexplicit] }

theorem cont_commit {pg : Pg} {tx : Nat} {stmt : Statement}
    (h : InTransaction pg true (some tx)) (htype : stmt.type = .commit) :
    pg.cont (some stmt) = some (committing pg tx) := by
  rw [cont_block h.state (.inr (.inl htype))]
  unfold Pg.continuePgFunc cameBack
  rw [htype]
  dsimp only
  rw [h.transactionPtr]
  dsimp only
  unfold Pg.sqlcommitexplicit Pg.commit
  dsimp only
  rw [h.pending]
  rfl

theorem answer_commit {pg : Pg} {tx : Nat} {stmt : Statement}
    (h : InTransaction pg true (some tx)) (htype : stmt.type = .commit)
    (o : Int × Nat) :
    ∃ pg', pg.answer (some stmt) (some o) = some pg' ∧
      Answers pg [.committed tx] .idle pg' := by
  have hanswers : Answers pg [.committed tx] .idle
      ({ committing pg tx with
        pending := [] } : Pg).continuePgCommitexplicit := by
    unfold Pg.continuePgCommitexplicit
    refine Answers.clear ?_
    rw [deleteTransaction_eq tx]
    · exact .write rfl (notReady_concat notReady_nil rfl) rfl
        ⟨rfl, h.autocommit, h.state, rfl, rfl,
          by simp [Pg.putCommandComplete, Pg.put, committing,
            h.transactions]⟩
    · rfl
  refine ⟨_, ?_, hanswers⟩
  unfold Pg.answer
  rw [cont_commit h htype]
  exact settle_of_matches hanswers.leads (some o)

/-! ## Procedures -/

/-- The session while a procedure runs, and when that has come back. -/
def calling (pg : Pg) (stmt : Statement) : Pg :=
  { pg with
    outbuf := []
    results := { cmdtype := .storedprocedure }
    command_autocommit := pg.transactionPtr.isNone
    pending := [.statement stmt none]
    effects := pg.effects ++ [Effect.called] }

def calledBack (pg : Pg) (o : Int × Nat) : Pg :=
  { pg with
    outbuf := []
    results := { cmdtype := .storedprocedure, statementStatus := o.1
                 selectResults := o.2 }
    command_autocommit := pg.transactionPtr.isNone
    pending := []
    effects := pg.effects ++ [Effect.called] }

theorem cont_called {pg : Pg} {stmt : Statement}
    (hstate : pg.state = .established) (hpending : pg.pending = [])
    (htype : stmt.type = .storedprocedure) (hloaded : stmt.loaded = true) :
    pg.cont (some stmt) = some (calling pg stmt) := by
  rw [cont_established hstate (by rw [htype]; rfl)]
  unfold Pg.execute
  rw [htype]
  dsimp only
  rw [if_pos hloaded, hpending]
  rfl

theorem answer_called {pg : Pg} {stmt : Statement}
    (h : InTransaction pg false none)
    (htype : stmt.type = .storedprocedure) (hloaded : stmt.loaded = true)
    (o : Int × Nat) :
    ∃ pg', pg.answer (some stmt) (some o) = some pg' ∧
      Answers pg [.called] .idle pg' := by
  obtain ⟨pg', hsettle, hanswers⟩ := continuePgFunc_answers
    (calledBack pg o) false none
    ⟨rfl, h.autocommit, h.state, rfl, h.isintransactionblock,
      h.transactions⟩ (fun hne => by cases hne) notReady_nil rfl o
  have hnone : effectsOf false none o.1 = [] := by
    unfold effectsOf
    split <;> rfl
  have hidle : stateOf false none o.1 = .idle := by
    unfold stateOf
    split <;> rfl
  change Answers _ (effectsOf false none o.1) (stateOf false none o.1) pg'
    at hanswers
  rw [hnone, hidle] at hanswers
  refine ⟨pg', ?_, hanswers.sent, ?_, hanswers.leads⟩
  · unfold Pg.answer
    rw [cont_called h.state h.pending htype hloaded]
    exact hsettle
  · rw [hanswers.effects, List.append_nil]
    rfl

theorem writesocket_effects (pg : Pg) :
    pg.writesocket.effects = pg.effects ∧
      pg.writesocket.pending = pg.pending := by
  unfold Pg.writesocket Pg.put
  split
  · exact ⟨rfl, rfl⟩
  · split <;> exact ⟨rfl, rfl⟩

/-- In a block it comes back to a session that has lost the transaction:
nothing is done for it, whatever it was. -/
theorem effects_of_called (pg : Pg)
    (hcmd : pg.results.cmdtype = .storedprocedure)
    (htx : pg.results.transactionPtr = none)
    (hblock : pg.isintransactionblock = true) :
    pg.continuePgFunc.effects = pg.effects ∧
      pg.continuePgFunc.pending = pg.pending := by
  unfold Pg.continuePgFunc
  dsimp only
  rw [hcmd, htx]
  dsimp only
  split
  · unfold Pg.finish
    rw [if_neg (by
      show ¬ ((!pg.isintransactionblock &&
        (pg.session_isautocommit || pg.command_autocommit)) = true)
      rw [hblock]
      simp)]
    exact writesocket_effects _
  · unfold Pg.failed
    obtain ⟨code, message, heq⟩ := errorStatus_eq _ pg.results.statementStatus
    rw [heq]
    unfold Pg.putErrorResponse Pg.sqlrollbackimplicit
    rw [if_pos hblock]
    exact writesocket_effects _

theorem answer_called_inBlock {pg : Pg} {tx : Nat} {stmt : Statement}
    (h : InTransaction pg true (some tx)) (htype : stmt.type = .storedprocedure)
    (hloaded : stmt.loaded = true) (o : Int × Nat) :
    ∃ pg', pg.answer (some stmt) (some o) = some pg' ∧
      pg'.effects = pg.effects ++ [.called] := by
  obtain ⟨heffects, hpending⟩ := effects_of_called
    (calledBack pg o) rfl rfl h.isintransactionblock
  refine ⟨_, ?_, heffects⟩
  unfold Pg.answer
  rw [cont_called h.state h.pending htype hloaded]
  exact settle_of_nil hpending (some o)

/-- One that is not is refused like a statement that fails. -/
theorem answer_not_loaded {pg : Pg} {block : Bool} {tx : Option Nat}
    {stmt : Statement} (h : InTransaction pg block tx)
    (htype : stmt.type = .storedprocedure) (hloaded : stmt.loaded = false)
    (outcome : Option (Int × Nat)) :
    ∃ pg', pg.answer (some stmt) outcome = some pg' ∧
      Answers pg (tx.toList.map .rolledBack) (afterRollback block) pg' := by
  have hcont : pg.cont (some stmt) = _ :=
    cont_refused h.state (by rw [htype]; rfl) (by rw [htype]; decide)
      fun _ => hloaded
  have hanswers : Answers pg (tx.toList.map .rolledBack) (afterRollback block)
      (cameBack pg stmt.type 1).continuePgFunc := by
    unfold Pg.continuePgFunc cameBack
    rw [htype]
    dsimp only
    rw [if_neg (by decide)]
    exact (failed_answers (cameBack pg .storedprocedure 1)
      ⟨h.pending, h.autocommit, h.state, h.transactionPtr,
        h.isintransactionblock, h.transactions⟩ 1).congr rfl rfl
  exact ⟨_, answer_of_cont hcont hanswers outcome, hanswers⟩

/-! ## Served or not -/

/-- The query is answered as it is to be in the state. -/
def Served (t : TxState) (pg : Pg) (a : Ask) : Prop :=
  ∃ pg', pg.answer a.query a.outcome = some pg' ∧
    ∃ t', (exchange pg a pg').next t = some t' ∧ Matches pg' t'

theorem Served.of_answers {t t' : TxState} {pg pg' : Pg} {a : Ask}
    {effects : List Effect} (h : pg.answer a.query a.outcome = some pg')
    (hanswers : Answers pg effects t' pg')
    (hserve : serve t a.query a.outcome pg.nexttransactionid =
      (effects, t')) : Served t pg a :=
  ⟨pg', h, t', hanswers.next hserve, hanswers.leads⟩

theorem not_served_of_none {t : TxState} {pg : Pg} {a : Ask}
    (h : pg.answer a.query a.outcome = none) : ¬ Served t pg a := by
  intro hserved
  obtain ⟨pg', hpg', _⟩ := hserved
  rw [h] at hpg'
  cases hpg'

theorem effects_of_next {t t' : TxState} {x : Exchange}
    (h : x.next t = some t') :
    x.effects = (serve t x.query x.outcome x.tx).1 ∧
      x.replies.filter isReadyForQuery =
        [.readyForQuery (serve t x.query x.outcome x.tx).2.status] := by
  unfold Exchange.next at h
  dsimp only at h
  split at h
  · next hok => exact hok
  · cases h

/-- What is done is not what is to be done. -/
theorem not_served_of_effects {t : TxState} {pg pg' : Pg} {a : Ask}
    {effects : List Effect} (h : pg.answer a.query a.outcome = some pg')
    (heffects : pg'.effects = pg.effects ++ effects)
    (hne : (serve t a.query a.outcome pg.nexttransactionid).1 ≠ effects) :
    ¬ Served t pg a := by
  intro hserved
  obtain ⟨pg₁, hpg₁, t', hnext, _⟩ := hserved
  obtain rfl : pg' = pg₁ := Option.some.inj (h.symm.trans hpg₁)
  have hsame := (effects_of_next hnext).1
  unfold exchange at hsame
  dsimp only at hsame
  rw [heffects, List.drop_left] at hsame
  exact hne hsame.symm

/-- No answer at all. -/
theorem not_served_of_sent {t : TxState} {pg : Pg} (pg' : Pg) {a : Ask}
    (h : pg.answer a.query a.outcome = some pg')
    (hsent : pg'.sent = pg.sent) : ¬ Served t pg a := by
  intro hserved
  obtain ⟨pg₁, hpg₁, t', hnext, _⟩ := hserved
  obtain rfl : pg' = pg₁ := Option.some.inj (h.symm.trans hpg₁)
  have hready := (effects_of_next hnext).2
  unfold exchange at hready
  dsimp only at hready
  rw [hsent, List.drop_length] at hready
  cases hready

/-! What is to be done, in terms of how queries end -/

/-- The two states in which statements are executed. -/
theorem block_cases {block : Bool} {tx : Option Nat}
    (h : block = true ↔ tx ≠ none) :
    (block = false ∧ tx = none) ∨ ∃ n, block = true ∧ tx = some n := by
  cases tx with
  | none =>
      cases block with
      | false => exact .inl ⟨rfl, rfl⟩
      | true => exact absurd rfl (h.mp rfl)
  | some n => exact .inr ⟨n, h.mpr (by simp), rfl⟩

theorem serve_transactional {block : Bool} {tx : Option Nat}
    {stmt : Statement} {n : Nat} (hblock : block = true ↔ tx ≠ none)
    (htype : stmt.type.isTransactional = true)
    (hresolves : stmt.resolves = true) (o : Int × Nat) :
    serve (afterOk block tx) (some stmt) (some o) n =
      ((tx.elim [.began n] fun _ => []) ++
          .executed (tx.getD n) stmt.type ::
          effectsOf block (some (tx.getD n)) o.1,
        stateOf block (some (tx.getD n)) o.1) := by
  unfold effectsOf stateOf
  rcases block_cases hblock with ⟨rfl, rfl⟩ | ⟨k, rfl, rfl⟩ <;>
    cases hcmd : stmt.type <;> rw [hcmd] at htype <;> try cases htype
  all_goals
    by_cases hstatus : o.1 = 0 <;>
      simp [afterOk, afterRollback, serve, serveIdle, serveInBlock, hcmd,
        hresolves, isOk, hstatus]

theorem serve_unresolved {block : Bool} {tx : Option Nat}
    {stmt : Statement} {n : Nat} (hblock : block = true ↔ tx ≠ none)
    (htype : stmt.type.isTransactional = true ∧ stmt.resolves = false ∨
      stmt.type = .storedprocedure ∧ stmt.loaded = false)
    (outcome : Option (Int × Nat)) :
    serve (afterOk block tx) (some stmt) outcome n =
      (tx.toList.map .rolledBack, afterRollback block) := by
  rcases block_cases hblock with ⟨rfl, rfl⟩ | ⟨k, rfl, rfl⟩ <;>
    rcases htype with ⟨htype, hnot⟩ | ⟨htype, hnot⟩
  case inl.inr => simp [afterOk, afterRollback, serve, serveIdle, htype, hnot]
  case inr.inr =>
    simp [afterOk, afterRollback, serve, serveInBlock, htype, hnot]
  all_goals
    cases hcmd : stmt.type <;> rw [hcmd] at htype <;> try cases htype
    all_goals
      simp [afterOk, afterRollback, serve, serveIdle, serveInBlock, hcmd,
        hnot]

/-! The ways not to come back -/

theorem answer_incomplete {pg : Pg} {stmt : Statement}
    (hstate : pg.state = .established) (htype : stmt.type = .insert)
    (hresolves : stmt.resolves = true) (hcomplete : stmt.complete = false)
    (outcome : Option (Int × Nat)) : pg.answer (some stmt) outcome = none := by
  unfold Pg.answer Pg.cont Pg.executeStatement
  rw [hstate]
  dsimp only
  rw [if_neg (by rw [hresolves]; simp)]
  unfold Pg.execute
  rw [htype]
  dsimp only
  rw [if_neg (by rw [hcomplete]; simp)]
  rfl

theorem answer_never {pg pg' : Pg} {query : Option Statement}
    (hcont : pg.cont query = some pg') (hpending : pg'.pending ≠ []) :
    pg.answer query none = none := by
  unfold Pg.answer
  rw [hcont]
  simp only [Option.bind_eq_bind, Option.bind_some]
  unfold Pg.settle
  cases hp : pg'.pending with
  | nil => exact absurd hp hpending
  | cons pending rest => rfl

/-! ## Each kind of query -/

section Established

variable {pg : Pg} {block : Bool} {tx : Option Nat} {stmt : Statement}
  {outcome : Option (Int × Nat)}

theorem served_syntax_iff (h : InTransaction pg block tx)
    (hblock : block = true ↔ tx ≠ none) :
    Served (afterOk block tx) pg ⟨none, outcome⟩ ↔ tx = none := by
  rcases block_cases hblock with ⟨rfl, rfl⟩ | ⟨k, rfl, rfl⟩
  · obtain ⟨pg', hanswer, hanswers⟩ :=
      answer_syntax (matches_idle_iff.mpr h) h.state outcome
    exact iff_of_true (.of_answers hanswer hanswers rfl) rfl
  · obtain ⟨pg', hanswer, hanswers⟩ :=
      answer_syntax (matches_inBlock_iff.mpr h) h.state outcome
    refine iff_of_false (not_served_of_effects hanswer hanswers.effects ?_)
      (by simp)
    exact List.cons_ne_nil _ _

theorem served_transactional_iff (h : InTransaction pg block tx)
    (hblock : block = true ↔ tx ≠ none)
    (htype : stmt.type.isTransactional = true) :
    Served (afterOk block tx) pg ⟨some stmt, outcome⟩ ↔
      stmt.resolves = false ∨
        ((stmt.type = .insert → stmt.complete = true) ∧ outcome ≠ none) := by
  cases hresolves : stmt.resolves with
  | false =>
      obtain ⟨pg', hanswer, hanswers⟩ :=
        answer_unresolved h htype hresolves outcome
      exact iff_of_true (.of_answers hanswer hanswers
        (serve_unresolved hblock (.inl ⟨htype, hresolves⟩) outcome))
        (.inl rfl)
  | true =>
      by_cases hcomplete : stmt.type = .insert → stmt.complete = true
      · cases outcome with
        | none =>
            refine iff_of_false (not_served_of_none (answer_never
              (cont_transactional h htype hresolves hcomplete) ?_)) (by simp)
            exact List.cons_ne_nil _ _
        | some o =>
            obtain ⟨pg', hanswer, hanswers⟩ :=
              answer_transactional h htype hresolves hcomplete o
            exact iff_of_true (.of_answers hanswer hanswers
              (serve_transactional hblock htype hresolves o))
              (.inr ⟨hcomplete, by simp⟩)
      · obtain ⟨hinsert, hnot⟩ := Classical.not_imp.mp hcomplete
        refine iff_of_false (not_served_of_none (answer_incomplete h.state
          hinsert hresolves (by simpa using hnot) outcome)) fun hor => ?_
        rcases hor with hfalse | hok
        · cases hfalse
        · exact hcomplete hok.1

theorem served_begin (h : InTransaction pg block tx)
    (hblock : block = true ↔ tx ≠ none) (htype : stmt.type = .begin) :
    Served (afterOk block tx) pg ⟨some stmt, outcome⟩ := by
  obtain ⟨pg', hanswer, hanswers⟩ := answer_begin h hblock htype outcome
  refine .of_answers hanswer hanswers ?_
  rcases block_cases hblock with ⟨rfl, rfl⟩ | ⟨k, rfl, rfl⟩
  · simp [afterOk, serve, serveIdle, htype]
  · simp [afterOk, serve, serveInBlock, htype]

theorem served_rollback (h : InTransaction pg block tx)
    (hblock : block = true ↔ tx ≠ none) (htype : stmt.type = .rollback) :
    Served (afterOk block tx) pg ⟨some stmt, outcome⟩ := by
  rcases block_cases hblock with ⟨rfl, rfl⟩ | ⟨k, rfl, rfl⟩
  · obtain ⟨pg', hanswer, hanswers⟩ := answer_end_idle h (.inr htype) outcome
    refine .of_answers hanswer hanswers ?_
    simp [afterOk, serve, serveIdle, htype]
  · obtain ⟨pg', hanswer, hanswers⟩ := answer_rollback h htype outcome
    refine .of_answers hanswer hanswers ?_
    simp [afterOk, serve, serveInBlock, htype]

theorem served_commit_iff (h : InTransaction pg block tx)
    (hblock : block = true ↔ tx ≠ none) (htype : stmt.type = .commit) :
    Served (afterOk block tx) pg ⟨some stmt, outcome⟩ ↔
      tx = none ∨ outcome ≠ none := by
  rcases block_cases hblock with ⟨rfl, rfl⟩ | ⟨k, rfl, rfl⟩
  · obtain ⟨pg', hanswer, hanswers⟩ := answer_end_idle h (.inl htype) outcome
    refine iff_of_true (.of_answers hanswer hanswers ?_) (.inl rfl)
    simp [afterOk, serve, serveIdle, htype]
  · cases outcome with
    | none =>
        refine iff_of_false (not_served_of_none
          (answer_never (cont_commit h htype) ?_)) (by simp)
        exact List.cons_ne_nil _ _
    | some o =>
        obtain ⟨pg', hanswer, hanswers⟩ := answer_commit h htype o
        refine iff_of_true (.of_answers hanswer hanswers ?_)
          (.inr (by simp))
        simp [afterOk, serve, serveInBlock, htype]

theorem served_procedure_iff (h : InTransaction pg block tx)
    (hblock : block = true ↔ tx ≠ none)
    (htype : stmt.type = .storedprocedure) :
    Served (afterOk block tx) pg ⟨some stmt, outcome⟩ ↔
      stmt.loaded = false ∨ (tx = none ∧ outcome ≠ none) := by
  cases hloaded : stmt.loaded with
  | false =>
      obtain ⟨pg', hanswer, hanswers⟩ :=
        answer_not_loaded h htype hloaded outcome
      exact iff_of_true (.of_answers hanswer hanswers
        (serve_unresolved hblock (.inr ⟨htype, hloaded⟩) outcome)) (.inl rfl)
  | true =>
      have hcont := cont_called h.state h.pending htype hloaded
      cases outcome with
      | none =>
          refine iff_of_false (not_served_of_none (answer_never hcont ?_))
            (by simp)
          exact List.cons_ne_nil _ _
      | some o =>
          rcases block_cases hblock with ⟨rfl, rfl⟩ | ⟨k, rfl, rfl⟩
          · obtain ⟨pg', hanswer, hanswers⟩ := answer_called h htype hloaded o
            refine iff_of_true (.of_answers hanswer hanswers ?_)
              (.inr ⟨rfl, by simp⟩)
            simp [afterOk, serve, serveIdle, htype, hloaded]
          · obtain ⟨pg', hanswer, heffects⟩ :=
              answer_called_inBlock h htype hloaded o
            refine iff_of_false
              (not_served_of_effects hanswer heffects ?_) (by simp)
            cases hok : isOk (some o) <;>
              simp [afterOk, serve, serveInBlock, htype, hloaded, hok]

/-- Nothing executes the other types, and nobody answers. -/
theorem not_served_refused (h : InTransaction pg block tx)
    (htype : stmt.type = .none ∨ stmt.type = .set ∨ stmt.type = .create ∨
      stmt.type = .drop ∨ stmt.type = .alter) (t : TxState) :
    ¬ Served t pg ⟨some stmt, outcome⟩ := by
  have hcont : pg.cont (some stmt) =
      some (cameBack pg stmt.type 1).continuePgFunc := by
    refine cont_refused h.state ?_ ?_ ?_ <;>
      rcases htype with htype | htype | htype | htype | htype <;>
      simp [htype, Cmd.isTransactional]
  have hsame : (cameBack pg stmt.type 1).continuePgFunc =
      cameBack pg stmt.type 1 := by
    unfold Pg.continuePgFunc cameBack
    rcases htype with htype | htype | htype | htype | htype <;> rw [htype]
  rw [hsame] at hcont
  refine not_served_of_sent (cameBack pg stmt.type 1) ?_ rfl
  unfold Pg.answer
  rw [hcont]
  simp only [Option.bind_eq_bind, Option.bind_some]
  have hsettle : (cameBack pg stmt.type 1).settle outcome =
      some (cameBack pg stmt.type 1) := by
    unfold Pg.settle
    rw [show (cameBack pg stmt.type 1).pending = [] from h.pending]
  rw [hsettle, Option.bind_some, hsettle]

end Established

theorem served_established_iff {w : World} {block : Bool} {tx : Option Nat}
    (h : InTransaction w.pg block tx) (hblock : block = true ↔ tx ≠ none)
    (a : Ask) :
    Served (afterOk block tx) w.pg a ↔ Servable w a := by
  obtain ⟨query, outcome⟩ := a
  unfold Servable
  rw [h.transactionPtr, or_iff_right (by rw [h.state]; decide)]
  cases query with
  | none => exact served_syntax_iff h hblock
  | some stmt =>
      dsimp only
      have htransactional := @served_transactional_iff w.pg block tx stmt
        outcome h hblock
      cases htype : stmt.type <;> rw [htype] at htransactional <;> dsimp only
      case select => simpa using htransactional rfl
      case insert => simpa using htransactional rfl
      case update => simpa using htransactional rfl
      case delete => simpa using htransactional rfl
      case begin => exact iff_of_true (served_begin h hblock htype) trivial
      case commit => exact served_commit_iff h hblock htype
      case rollback =>
        exact iff_of_true (served_rollback h hblock htype) trivial
      case storedprocedure => exact served_procedure_iff h hblock htype
      all_goals
        exact iff_of_false
          (not_served_refused h (by simp [htype]) _) fun hfalse => hfalse

/-- A query is served as it is to be exactly if it is servable. -/
theorem served_iff {w : World} {t : TxState} (h : Matches w.pg t) (a : Ask) :
    Served t w.pg a ↔ Servable w a := by
  cases t with
  | idle =>
      exact served_established_iff (matches_idle_iff.mp h) (by simp) a
  | inBlock tx =>
      exact served_established_iff (matches_inBlock_iff.mp h) (by simp) a
  | aborted =>
      obtain ⟨pg', hanswer, hanswers⟩ :=
        answer_aborted h a.query a.outcome w.pg.nexttransactionid
      exact iff_of_true (.of_answers hanswer hanswers rfl)
        (.inl h.transaction.1)

/-! ## Runs -/

theorem ask_iff {w : World} (h : AsSpecified w) (a : Ask) :
    (∃ w', ask w a = some w' ∧ AsSpecified w') ↔ Servable w a := by
  obtain ⟨t, hhistory, hmatches⟩ := h
  have hafter : ∀ pg', (w.history ++ [exchange w.pg a pg']).foldlM
      Exchange.next .idle = (exchange w.pg a pg').next t := by
    intro pg'
    rw [List.foldlM_append, hhistory]
    simp
  rw [← served_iff hmatches a]
  constructor
  · intro hask
    obtain ⟨w', hw', t', hhistory', hmatches'⟩ := hask
    obtain ⟨pg', hpg', hw'⟩ := Option.bind_eq_some_iff.mp hw'
    cases hw'
    dsimp only at hhistory'
    rw [hafter] at hhistory'
    exact ⟨pg', hpg', t', hhistory', hmatches'⟩
  · intro hserved
    obtain ⟨pg', hpg', t', hnext, hmatches'⟩ := hserved
    refine ⟨{ pg := pg', history := w.history ++ [exchange w.pg a pg'] },
      ?_, t', (hafter pg').trans hnext, hmatches'⟩
    unfold ask
    rw [hpg']
    rfl

/-- A session serves all queries as it is to, from its login on, exactly if
all of them are servable. -/
theorem allDefined_asSpecified_iff (as : List Ask) :
    AllDefined ask AsSpecified {} as ↔ AllCalls ask Servable {} as := by
  refine allDefined_iff (J := fun _ => True) (fun _ _ _ _ _ _ => trivial)
    (fun w a _ _ h => ask_iff h a) trivial ?_ allCalls_true
  exact ⟨.idle, rfl, ⟨rfl, rfl, rfl, rfl, rfl, rfl⟩⟩

/-- `BEGIN`, and then text that is no query. -/
def syntaxErrorInBlock : List Ask :=
  [⟨some { type := .begin }, some (0, 0)⟩, ⟨none, some (0, 0)⟩]

/-- The block goes on. -/
theorem syntaxErrorInBlock_not_asSpecified : ∃ w,
    run ask {} syntaxErrorInBlock = some w ∧ w.pg.state = .established ∧
      w.pg.transactionPtr = some 0 ∧
      ¬ AllDefined ask AsSpecified {} syntaxErrorInBlock := by
  refine ⟨_, rfl, by decide, by decide, fun h => ?_⟩
  obtain ⟨t, hhistory, _⟩ := h.at_end rfl
  cases (show _ = none from by decide).symm.trans hhistory

end Infinisql.Proofs
