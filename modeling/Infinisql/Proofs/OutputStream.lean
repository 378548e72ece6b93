import Infinisql.Lib.Run
import Infinisql.Spec.PgOutput

/-!
# What the socket takes are the replies

A reply is put together in `outbuf`, and the functions that do it are each one
append of messages. Then `writesocket` adds the `ReadyForQuery` and calls
`send`, and whatever `send` takes, what has been taken and what is left are
together what there was. So a session goes from having nothing left to having
put some messages together to having the rest of a reply left, and the
messages are those of the answer, case by case.

What is left has a `ReadyForQuery` already. `rewritesocket` goes through
`writesocket` all the same, and adds another one. Before a session is
established nothing is added, and the rest of a reply is all that goes out.
-/

namespace Infinisql.Proofs.Output

open Infinisql.Lib Infinisql.Spec.Output
open Infinisql.Ref (Bytes FieldValue PgState)
open Infinisql.Ref.Output
open Infinisql.Ref.Session (Cmd Statement Pending)

variable {host : Host} {pg pg' : Pg} {s : Standing} {sent : Bytes}
variable {ms : List BackendMessage}

/-! ## Messages -/

theorem bytes_append (ms ms' : List BackendMessage) :
    bytes (ms ++ ms') = bytes ms ++ bytes ms' := List.flatMap_append

theorem bytes_singleton (m : BackendMessage) : bytes [m] = m.bytes :=
  List.append_nil _

/-- The session with these messages put behind the others. -/
def queued (pg : Pg) (ms : List BackendMessage) : Pg :=
  { pg with outbuf := pg.outbuf ++ bytes ms }

theorem queue_queue (pg : Pg) (ms ms' : List BackendMessage) :
    queued (queued pg ms) ms' = queued pg (ms ++ ms') := by
  simp only [queued, bytes_append, List.append_assoc]

theorem queue_outmsg (pg : Pg) (ms : List BackendMessage) :
    (queued pg ms).outmsg = pg.outmsg := rfl

theorem put_put (pg : Pg) (a b : Bytes) :
    (pg.put a).put b = pg.put (a ++ b) := by
  simp only [Pg.put, List.append_assoc]

theorem replymsg_put (h : pg.outmsg = []) (c : Char) (body : Bytes) :
    (pg.put body).replymsg c = queued pg [⟨c, body⟩] := by
  rw [queued, bytes_singleton, Pg.replymsg, Pg.put, h, List.nil_append]
  cases pg
  subst h
  rfl

theorem putCommandComplete_eq (h : pg.outmsg = []) (tag : Bytes) :
    pg.putCommandComplete tag = queued pg [commandComplete tag] :=
  replymsg_put h 'C' (tag ++ [0])

theorem putFields_eq (pg : Pg) (severity code message : String) :
    pg.putFields severity code message =
      pg.put (fields severity code message) := by
  simp only [Pg.putFields, Pg.putChar, Pg.putString, put_put, fields]
  rfl

theorem putNoticeResponse_eq (h : pg.outmsg = [])
    (severity code message : String) :
    pg.putNoticeResponse severity code message =
      queued pg [noticeResponse severity code message] := by
  rw [Pg.putNoticeResponse, putFields_eq, replymsg_put h]
  rfl

theorem putErrorResponse_eq (h : pg.outmsg = [])
    (severity code message : String) :
    pg.putErrorResponse severity code message =
      (queued pg [errorResponse severity code message]).writesocket := by
  rw [Pg.putErrorResponse, putFields_eq, replymsg_put h]
  rfl

/-! ## Rows -/

theorem typeOf_isSome (field : Fieldtypename) :
    ∃ oid len, Pg.typeOf field.type = some (oid, len) := by
  have h := field.isfield
  cases htype : field.type with
  | nofieldtype => exact absurd htype h
  | int | uint | bool | float | char | charx | varchar => exact ⟨_, _, rfl⟩

theorem textOf_isSome (host : Host) (field : Fieldtypename)
    (val : FieldValue) : ∃ text, Pg.textOf host field.type val = some text := by
  have h := field.isfield
  cases htype : field.type with
  | nofieldtype => exact absurd htype h
  | int | uint | bool | float | char | charx | varchar => exact ⟨_, rfl⟩

theorem putFieldDescriptions_eq (fields : List Fieldtypename) (pg : Pg) :
    Pg.putFieldDescriptions fields pg =
      (pg.put (fields.flatMap description)).replymsg 'T' := by
  induction fields generalizing pg with
  | nil =>
      rw [Pg.putFieldDescriptions, List.flatMap_nil, Pg.put, List.append_nil]
  | cons field fields ih =>
      obtain ⟨oid, len, htype⟩ := typeOf_isSome field
      rw [Pg.putFieldDescriptions, htype]
      dsimp only
      rw [ih]
      simp only [Pg.putString, Pg.putInt16, Pg.putInt32, put_put,
        List.flatMap_cons, description, htype, List.append_assoc]

theorem putRowDescription_eq (h : pg.outmsg = []) :
    pg.putRowDescription =
      queued pg [rowDescription pg.results.selectFields] := by
  rw [Pg.putRowDescription, putFieldDescriptions_eq, Pg.putInt16, put_put,
    replymsg_put h]
  rfl

theorem putValues_eq (fields : List Fieldtypename) (vals : List FieldValue)
    (pg : Pg) :
    Pg.putValues host fields vals pg =
      (pg.put (values host fields vals)).replymsg 'D' := by
  induction fields generalizing vals pg with
  | nil => rw [Pg.putValues, values, Pg.put, List.append_nil]
  | cons field fields ih =>
      obtain ⟨text, htext⟩ := textOf_isSome host field (vals.headD {})
      rw [Pg.putValues, values]
      dsimp only
      split
      · rw [ih, Pg.putInt32, put_put]
      · rw [htext]
        dsimp only
        rw [ih, Pg.putInt32, put_put, put_put, Option.getD_some,
          List.append_assoc]

theorem putDataRow_eq (h : pg.outmsg = []) (row : List FieldValue) :
    pg.putDataRow host row =
      queued pg [dataRow host pg.results.selectFields row] := by
  rw [Pg.putDataRow, putValues_eq, Pg.putInt16, put_put, replymsg_put h]
  rfl

theorem putDataRows_eq (h : pg.outmsg = []) :
    pg.putDataRows host =
      queued pg (pg.results.selectResults.map
        (dataRow host pg.results.selectFields)) := by
  have hfold : ∀ (rows : List (List FieldValue)) (pg : Pg),
      pg.outmsg = [] → rows.foldl (Pg.putDataRow host) pg =
        queued pg (rows.map (dataRow host pg.results.selectFields)) := by
    intro rows
    induction rows with
    | nil =>
        intro pg _
        show pg = { pg with outbuf := pg.outbuf ++ [] }
        rw [List.append_nil]
    | cons row rows ih =>
        intro pg h
        rw [List.foldl_cons, putDataRow_eq h, ih (queued pg _) h, queue_queue]
        rfl
  exact hfold _ pg h

theorem putRows_eq (h : pg.outmsg = []) {outcome : Pg.Outcome}
    (hfields : pg.results.selectFields = outcome.selectFields)
    (hrows : pg.results.selectResults = outcome.selectResults) :
    pg.putRows host = queued pg (Standing.rows host outcome) := by
  rw [Pg.putRows, putRowDescription_eq h,
    putDataRows_eq ((queue_outmsg _ _).trans h), queue_queue,
    putCommandComplete_eq ((queue_outmsg _ _).trans h), queue_queue,
    Standing.rows, ← hfields, ← hrows, List.append_assoc]
  rfl

theorem putParameterStatus_eq (h : pg.outmsg = []) (name : String)
    (value : Bytes) :
    pg.putParameterStatus name value =
      queued pg [parameterStatus name value] := by
  rw [Pg.putParameterStatus, Pg.putString, Pg.putString, put_put,
    replymsg_put h]
  rfl

theorem putGreeting_eq (h : pg.outmsg = []) :
    pg.putGreeting host = queued pg (reply
      (authenticationOk host (pg.startupArgs (ascii "username")), 'I')) := by
  have hq : ∀ ms, (queued pg ms).outmsg = [] := fun _ => h
  have hfirst : (pg.putInt32 0).replymsg 'R' =
      queued pg [⟨'R', htobe 4 0⟩] := replymsg_put h 'R' (htobe 4 0)
  rw [Pg.putGreeting, hfirst]
  simp only [putParameterStatus_eq (hq _), queue_queue, Pg.putInt32, put_put,
    replymsg_put (hq _), Pg.putChar]
  rfl

/-! ## The socket -/

theorem sendAll_spec {sends : List Send} {outbuf sent rest taken : Bytes}
    {complete : Bool}
    (h : Pg.sendAll sends outbuf sent = (rest, taken, complete)) :
    taken ++ rest = sent ++ outbuf ∧ (complete = true → rest = []) := by
  induction sends generalizing outbuf sent with
  | nil =>
      cases h
      exact ⟨List.append_nil _, fun _ => rfl⟩
  | cons result sends ih =>
      cases result with
      | again =>
          rw [Pg.sendAll] at h
          split at h
          · next hlen =>
            cases h
            rw [List.length_eq_zero_iff.mp hlen]
            exact ⟨rfl, fun _ => rfl⟩
          · cases h
            exact ⟨rfl, fun h => absurd h (by simp)⟩
      | sent n =>
          rw [Pg.sendAll] at h
          split at h
          · next hlen =>
            cases h
            rw [List.length_eq_zero_iff.mp hlen]
            exact ⟨rfl, fun _ => rfl⟩
          · obtain ⟨htaken, hrest⟩ := ih h
            refine ⟨?_, hrest⟩
            rw [htaken, List.append_assoc, List.take_append_drop]

/-- What has been taken and what is left are the stream up to here. -/
def Leaves (pg : Pg) (stream : Bytes) : Prop :=
  ∃ rest, pg.sent ++ rest = stream ∧
    (pg.epollout = false → rest = [] ∧ pg.outbuf = []) ∧
    (pg.state = .begin ∨ pg.state = .auth → pg.outbuf = rest)

/-- The messages that `writesocket` adds. -/
def ready (pg : Pg) : List BackendMessage :=
  if pg.state = .established then
    [readyForQuery (if pg.transactionPtr = none then 'I' else 'T')]
  else if pg.state = .aborted then [readyForQuery 'E']
  else []

theorem putReady_eq (h : pg.outmsg = []) :
    pg.putReady = queued pg (ready pg) := by
  rw [Pg.putReady, ready]
  split
  · exact replymsg_put h 'Z' _
  · split
    · exact replymsg_put h 'Z' _
    · show pg = { pg with outbuf := pg.outbuf ++ [] }
      rw [List.append_nil]

theorem writesocketStatus_eq (h : pg.outmsg = []) :
    ∃ status outbuf sent epollout,
      pg.writesocketStatus = (status, { pg with outbuf, sent, epollout }) ∧
        sent ++ outbuf = pg.sent ++ (pg.outbuf ++ bytes (ready pg)) ∧
        (status = 0 ∨ epollout = false → outbuf = []) := by
  rw [Pg.writesocketStatus, putReady_eq h]
  dsimp only
  cases hsend : Pg.sendAll (queued pg (ready pg)).sends
      (queued pg (ready pg)).outbuf (queued pg (ready pg)).sent with
  | mk rest more =>
      obtain ⟨taken, complete⟩ := more
      obtain ⟨htaken, hrest⟩ := sendAll_spec hsend
      dsimp only
      split
      · next hcomplete =>
        rw [hrest hcomplete] at htaken
        exact ⟨_, _, _, _, rfl, htaken, fun _ => rfl⟩
      · refine ⟨_, _, _, _, rfl, htaken, fun h => ?_⟩
        rcases h with h | h
        · exact absurd h (by simp)
        · exact absurd h (by simp)

theorem writesocket_eq (h : pg.outmsg = []) :
    ∃ outbuf sent epollout,
      pg.writesocket = { pg with outbuf, sent, epollout } ∧
        sent ++ outbuf = pg.sent ++ (pg.outbuf ++ bytes (ready pg)) ∧
        (epollout = false → outbuf = []) := by
  obtain ⟨status, outbuf, sent, epollout, heq, hsent, hrest⟩ :=
    writesocketStatus_eq h
  exact ⟨outbuf, sent, epollout, by rw [Pg.writesocket, heq], hsent,
    fun hfalse => hrest (.inr hfalse)⟩

theorem rewritesocket_eq (h : pg.outmsg = []) :
    ∃ outbuf sent epollout,
      pg.rewritesocket = { pg with outbuf, sent, epollout } ∧
        sent ++ outbuf = pg.sent ++ (pg.outbuf ++ bytes (ready pg)) ∧
        (epollout = false → outbuf = []) := by
  obtain ⟨status, outbuf, sent, epollout, heq, hsent, hrest⟩ :=
    writesocketStatus_eq h
  rw [Pg.rewritesocket, heq]
  dsimp only
  split
  · next hzero =>
    exact ⟨outbuf, sent, false, rfl, hsent, fun _ => hrest (.inl hzero)⟩
  · exact ⟨outbuf, sent, epollout, rfl, hsent,
      fun hfalse => hrest (.inr hfalse)⟩

/-! ## Between replies and within one -/

/-- The session has put these messages together, and nothing waits. -/
structure Works (pg : Pg) (sent : Bytes) (ms : List BackendMessage) :
    Prop where
  outmsg : pg.outmsg = []
  autocommit : pg.session_isautocommit = true
  pending : pg.pending = []
  sent : pg.sent = sent
  outbuf : pg.outbuf = bytes ms

/-- The replies up to here have been given to the socket. -/
structure Done (pg : Pg) (stream : Bytes) : Prop where
  outmsg : pg.outmsg = []
  autocommit : pg.session_isautocommit = true
  isopen : pg.state ≠ .exiting
  pending : pg.pending = []
  leaves : Leaves pg stream

theorem Works.queue (h : Works pg sent ms) (ms' : List BackendMessage) :
    Works (queued pg ms') sent (ms ++ ms') where
  outmsg := h.outmsg
  autocommit := h.autocommit
  pending := h.pending
  sent := h.sent
  outbuf := by
    rw [bytes_append, ← h.outbuf]
    rfl

theorem Works.write (h : Works pg sent ms) (hopen : pg.state ≠ .exiting) :
    Done pg.writesocket (sent ++ bytes (ms ++ ready pg)) := by
  obtain ⟨outbuf, taken, epollout, heq, htaken, hrest⟩ :=
    writesocket_eq h.outmsg
  rw [h.sent, h.outbuf, ← bytes_append] at htaken
  rw [heq]
  exact ⟨h.outmsg, h.autocommit, hopen, h.pending, outbuf, htaken,
    fun hfalse => ⟨hrest hfalse, hrest hfalse⟩, fun _ => rfl⟩

theorem ready_established (h : pg.state = .established) :
    ready pg = [readyForQuery (if pg.transactionPtr = none then 'I'
      else 'T')] := if_pos h

theorem ready_aborted (h : pg.state = .aborted) :
    ready pg = [readyForQuery 'E'] := by
  rw [ready, h]
  rfl

/-- A reply of an established session. -/
theorem Works.write_established (h : Works pg sent ms)
    (hstate : pg.state = .established) {status : Char}
    (hstatus : (if pg.transactionPtr = none then 'I' else 'T') = status) :
    Done pg.writesocket (sent ++ bytes (reply (ms, status))) := by
  have hdone := h.write (by rw [hstate]; simp)
  rwa [ready_established hstate, hstatus] at hdone

theorem Works.write_aborted (h : Works pg sent ms)
    (hstate : pg.state = .aborted) :
    Done pg.writesocket (sent ++ bytes (reply (ms, 'E'))) := by
  have hdone := h.write (by rw [hstate]; simp)
  rwa [ready_aborted hstate] at hdone

/-- What an explicit commit forgets is known to `EPOLLOUT` only. -/
theorem Done.forget {stream : Bytes} (h : Done pg stream)
    (hstate : pg.state ≠ .begin ∧ pg.state ≠ .auth) :
    Done { pg with outbuf := [] } stream := by
  obtain ⟨rest, hsent, hdrained, _⟩ := h.leaves
  exact ⟨h.outmsg, h.autocommit, h.isopen, h.pending, rest, hsent,
    fun hfalse => ⟨(hdrained hfalse).1, rfl⟩,
    fun h => (h.elim hstate.1 hstate.2).elim⟩

theorem writesocket_state (h : pg.outmsg = []) :
    pg.writesocket.state = pg.state := by
  obtain ⟨_, _, _, heq, _⟩ := writesocket_eq h
  rw [heq]

/-! ## Failures -/

theorem Works.rollback (h : Works pg sent ms) :
    Works pg.sqlrollbackimplicit sent [] := by
  rw [Pg.sqlrollbackimplicit, Pg.continuePgRollbackimplicit]
  cases pg.isintransactionblock with
  | false => exact ⟨h.outmsg, h.autocommit, h.pending, h.sent, rfl⟩
  | true => exact ⟨h.outmsg, h.autocommit, h.pending, h.sent, rfl⟩

/-- The error that a rollback ends with. -/
theorem Works.failed (h : Works pg sent ms)
    (hstate : pg.state = .established)
    (hblock : pg.isintransactionblock = s.block) (code message : String) :
    Done (pg.sqlrollbackimplicit.putErrorResponse "ERROR" code message)
      (sent ++ bytes (reply (s.failed code message))) := by
  have hworks := h.rollback.queue [errorResponse "ERROR" code message]
  rw [putErrorResponse_eq h.rollback.outmsg, Standing.failed]
  cases hs : s.block with
  | false =>
      have hstays : pg.sqlrollbackimplicit.state = .established := by
        rw [Pg.sqlrollbackimplicit, hblock, hs]
        exact hstate
      have htx : pg.sqlrollbackimplicit.transactionPtr = none := rfl
      refine hworks.write_established hstays ?_
      show (if pg.sqlrollbackimplicit.transactionPtr = none then 'I'
        else 'T') = 'I'
      rw [htx]
      rfl
  | true =>
      have haborts : pg.sqlrollbackimplicit.state = .aborted := by
        rw [Pg.sqlrollbackimplicit, hblock, hs]
        rfl
      exact hworks.write_aborted haborts

theorem Works.failedWith (h : Works pg sent ms)
    (hstate : pg.state = .established)
    (hblock : pg.isintransactionblock = s.block) (status : Int) :
    Done (pg.failed status)
      (sent ++ bytes (reply (s.failedWith status))) := by
  rw [Pg.failed, Pg.errorStatus, Standing.failedWith]
  split
  · exact h.failed hstate hblock _ _
  · split
    · exact h.failed hstate hblock _ _
    · split
      · exact h.failed hstate hblock _ _
      · exact h.failed hstate hblock _ _

/-! ## Successes -/

/-- The answer of a statement without a block is written when its commit has
come back. -/
structure Commits (pg : Pg) (sent : Bytes) (ms : List BackendMessage) :
    Prop where
  outmsg : pg.outmsg = []
  autocommit : pg.session_isautocommit = true
  pending : pg.pending = [.commitimplicit]
  sent : pg.sent = sent
  outbuf : pg.outbuf = bytes ms
  state : pg.state = .established

theorem Works.finish (h : Works pg sent ms)
    (hstate : pg.state = .established)
    (hblock : pg.isintransactionblock = s.block) {tx : Nat}
    (htx : pg.transactionPtr = some tx) :
    Done pg.finish (sent ++ bytes (reply (s.succeeded ms))) ∨
      (Commits pg.finish sent ms ∧ s.block = false) := by
  rw [Pg.finish, hblock, h.autocommit, Standing.succeeded]
  cases hs : s.block with
  | false =>
      refine .inr ⟨?_, rfl⟩
      show Commits pg.sqlcommitimplicit sent ms
      rw [Pg.sqlcommitimplicit, htx]
      refine ⟨h.outmsg, h.autocommit, ?_, h.sent, h.outbuf, hstate⟩
      rw [Pg.await, h.pending]
      rfl
  | true =>
      refine .inl (h.write_established hstate ?_)
      rw [htx]
      rfl

/-- A statement that has no transaction has nothing to commit. -/
theorem Works.finish_none (h : Works pg sent ms)
    (hstate : pg.state = .established) (htx : pg.transactionPtr = none) :
    Done pg.finish (sent ++ bytes (reply (ms, 'I'))) := by
  have hdeleted : pg.deleteTransaction = pg := by
    rw [Pg.deleteTransaction, ← htx]
  have hdone : Done pg.writesocket (sent ++ bytes (reply (ms, 'I'))) :=
    h.write_established hstate (by rw [htx]; rfl)
  rw [Pg.finish]
  split
  · rw [Pg.sqlcommitimplicit, htx]
    show Done pg.deleteTransaction.writesocket _
    rwa [hdeleted]
  · exact hdone

/-- The rows of a stored procedure. -/
theorem Works.called (h : Works pg sent []) (hstate : pg.state = .established)
    (htx : pg.transactionPtr = none) {outcome : Pg.Outcome}
    (hfields : pg.results.selectFields = outcome.selectFields)
    (hrows : pg.results.selectResults = outcome.selectResults) :
    Done (pg.putRows host).finish
      (sent ++ bytes (reply (Standing.rows host outcome, 'I'))) := by
  rw [putRows_eq h.outmsg hfields hrows]
  exact (h.queue _).finish_none hstate htx

theorem Commits.returns (h : Commits pg sent ms) :
    Done { pg with pending := [] }.continuePgCommitimplicit
      (sent ++ bytes (reply (ms, 'I'))) := by
  have hworks : Works { pg with pending := [] }.deleteTransaction sent ms :=
    ⟨h.outmsg, h.autocommit, rfl, h.sent, h.outbuf⟩
  exact hworks.write_established h.state rfl

/-! ## What a query leads to -/

/-- The statement waits for the engines. -/
structure Runs (pg : Pg) (sent : Bytes) (s : Standing) (stmt : Statement)
    (tx : Option Nat) : Prop where
  outmsg : pg.outmsg = []
  autocommit : pg.session_isautocommit = true
  pending : pg.pending = [.statement stmt tx]
  sent : pg.sent = sent
  outbuf : pg.outbuf = []
  state : pg.state = .established
  block : pg.isintransactionblock = s.block
  aborted : s.aborted = false
  cmdtype : pg.results.cmdtype = stmt.type
  kind : (∃ t, tx = some t ∧ stmt.type.isTransactional = true ∧
      stmt.resolves = true) ∨
    (tx = none ∧ stmt.type = .storedprocedure ∧ stmt.loaded = true ∧
      pg.results.transactionPtr = none)

/-- The commit of a block waits for the engines. -/
structure CommitsBlock (pg : Pg) (sent : Bytes) : Prop where
  outmsg : pg.outmsg = []
  autocommit : pg.session_isautocommit = true
  pending : pg.pending = [.commitexplicit]
  sent : pg.sent = sent
  outbuf : pg.outbuf = []
  state : pg.state = .established

/-- A query has not been answered yet. -/
def Waits (host : Host) (pg : Pg) (sent : Bytes) (s : Standing)
    (q : Option Statement) (o : Option Pg.Outcome) : Prop :=
  (∃ stmt tx, q = some stmt ∧ Runs pg sent s stmt tx) ∨
    (∃ ms, s.answer host q o = some (ms, 'I') ∧ Commits pg sent ms) ∨
    (s.answer host q o = some ([commandComplete (ascii "COMMIT")], 'I') ∧
      CommitsBlock pg sent)

/-- A query has been answered, or waits. -/
def After (host : Host) (pg : Pg) (sent : Bytes) (s : Standing)
    (q : Option Statement) (o : Option Pg.Outcome) : Prop :=
  (∃ a, s.answer host q o = some a ∧
      Done pg (sent ++ bytes (reply a))) ∨
    Waits host pg sent s q o

variable {q : Option Statement} {o : Option Pg.Outcome} {stmt : Statement}

theorem Works.after_finish (h : Works pg sent ms)
    (hstate : pg.state = .established)
    (hblock : pg.isintransactionblock = s.block) {tx : Nat}
    (htx : pg.transactionPtr = some tx)
    (ha : s.answer host q o = some (s.succeeded ms)) :
    After host pg.finish sent s q o := by
  rcases h.finish hstate hblock htx with hdone | ⟨hcommits, hs⟩
  · exact .inl ⟨_, ha, hdone⟩
  · rw [Standing.succeeded, hs] at ha
    exact .inr (.inr (.inl ⟨ms, ha, hcommits⟩))

theorem Works.after_failed (h : Works pg sent [])
    (hstate : pg.state = .established)
    (hblock : pg.isintransactionblock = s.block) {status : Int}
    (ha : s.answer host q o = some (s.failedWith status)) :
    After host (pg.failed status) sent s q o :=
  .inl ⟨_, ha, h.failedWith hstate hblock status⟩

/-- A statement that is executed at all is answered by its type. -/
theorem answer_statement (haborted : s.aborted = false)
    (hresolves : stmt.type.isTransactional = true → stmt.resolves = true) :
    s.answer host (some stmt) o = s.answerStatement host stmt o := by
  have hno : ¬ (stmt.type.isTransactional && !stmt.resolves) = true := by
    intro h
    rw [Bool.and_eq_true] at h
    rw [hresolves h.1] at h
    exact absurd h.2 (by simp)
  rw [Standing.answer, haborted, if_neg (by simp), if_neg hno]

/-- `continuePgFunc` has the transaction of the results. -/
theorem Works.continues (h : Works pg sent [])
    (hstate : pg.state = .established)
    (hblock : pg.isintransactionblock = s.block) :
    ∃ p, { pg with transactionPtr := pg.results.transactionPtr } = p ∧
      Works p sent [] ∧ p.state = .established ∧
      p.isintransactionblock = s.block ∧
      p.transactionPtr = pg.results.transactionPtr ∧
      p.results = pg.results :=
  ⟨_, rfl, ⟨h.outmsg, h.autocommit, h.pending, h.sent, h.outbuf⟩, hstate,
    hblock, rfl, rfl⟩

/-- A statement with a transaction comes back with success. -/
theorem Works.continue_ok (h : Works pg sent [])
    (hstate : pg.state = .established)
    (hblock : pg.isintransactionblock = s.block)
    (hcmd : pg.results.cmdtype = stmt.type)
    (htransactional : stmt.type.isTransactional = true) {tx : Nat}
    (htx : pg.results.transactionPtr = some tx)
    (hstatus : pg.results.statementStatus = 0) {outcome : Pg.Outcome}
    (hok : outcome.statementStatus = 0)
    (hrows : stmt.type = .select →
      pg.results.selectFields = outcome.selectFields ∧
        pg.results.selectResults = outcome.selectResults)
    (hcount : stmt.type = .update ∨ stmt.type = .delete →
      pg.results.statementResults = outcome.statementResults)
    (ha : s.answer host q o = s.answerStatement host stmt (some outcome)) :
    After host (pg.continuePgFunc host) sent s q o := by
  obtain ⟨p, hp, hworks, hs, hb, hptr, hres⟩ := h.continues hstate hblock
  have hptr := hptr.trans htx
  rw [Standing.answerStatement] at ha
  rw [Pg.continuePgFunc, hp, hres, hcmd, hstatus]
  cases htype : stmt.type with
  | select =>
      rw [htype] at ha
      simp only [Option.map_some, if_pos hok] at ha
      obtain ⟨hfields, hresults⟩ := hrows htype
      dsimp only
      rw [if_pos rfl, putRows_eq hworks.outmsg (by rw [hres, hfields])
        (by rw [hres, hresults])]
      exact (hworks.queue _).after_finish hs hb hptr ha
  | insert =>
      rw [htype] at ha
      simp only [Option.map_some, if_pos hok] at ha
      dsimp only
      rw [if_pos rfl, putCommandComplete_eq hworks.outmsg]
      exact (hworks.queue _).after_finish hs hb hptr ha
  | update =>
      rw [htype] at ha
      simp only [Option.map_some, if_pos hok] at ha
      dsimp only
      rw [if_pos rfl, hcount (.inl htype),
        putCommandComplete_eq hworks.outmsg]
      exact (hworks.queue _).after_finish hs hb hptr ha
  | delete =>
      rw [htype] at ha
      simp only [Option.map_some, if_pos hok] at ha
      dsimp only
      rw [if_pos rfl, hcount (.inr htype),
        putCommandComplete_eq hworks.outmsg]
      exact (hworks.queue _).after_finish hs hb hptr ha
  | none | begin | commit | rollback | set | storedprocedure | create | drop
  | alter =>
      rw [htype] at htransactional
      exact absurd htransactional (by decide)

/-- It comes back with an error. -/
theorem Works.continue_failed (h : Works pg sent [])
    (hstate : pg.state = .established)
    (hblock : pg.isintransactionblock = s.block)
    (hcmd : pg.results.cmdtype = stmt.type)
    (htransactional : stmt.type.isTransactional = true)
    {outcome : Pg.Outcome}
    (hstatus : pg.results.statementStatus = outcome.statementStatus)
    (hfailed : outcome.statementStatus ≠ 0)
    (ha : s.answer host q o = s.answerStatement host stmt (some outcome)) :
    After host (pg.continuePgFunc host) sent s q o := by
  obtain ⟨p, hp, hworks, hs, hb, _, hres⟩ := h.continues hstate hblock
  rw [Standing.answerStatement] at ha
  rw [Pg.continuePgFunc, hp, hres, hcmd, hstatus]
  cases htype : stmt.type with
  | select | insert | update | delete =>
      rw [htype] at ha
      simp only [Option.map_some, if_neg hfailed] at ha
      dsimp only
      rw [if_neg hfailed]
      exact hworks.after_failed hs hb ha
  | none | begin | commit | rollback | set | storedprocedure | create | drop
  | alter =>
      rw [htype] at htransactional
      exact absurd htransactional (by decide)

/-- A stored procedure comes back. -/
theorem Works.continue_called (h : Works pg sent [])
    (hstate : pg.state = .established)
    (hblock : pg.isintransactionblock = s.block)
    (hcmd : pg.results.cmdtype = .storedprocedure)
    (htx : pg.results.transactionPtr = none) {outcome : Pg.Outcome}
    (hstatus : pg.results.statementStatus = outcome.statementStatus)
    (hfields : pg.results.selectFields = outcome.selectFields)
    (hrows : pg.results.selectResults = outcome.selectResults)
    (ha : s.answer host q o = some
      (if outcome.statementStatus = 0 then (Standing.rows host outcome, 'I')
        else s.failedWith outcome.statementStatus)) :
    After host (pg.continuePgFunc host) sent s q o := by
  obtain ⟨p, hp, hworks, hs, hb, hptr, hres⟩ := h.continues hstate hblock
  rw [Pg.continuePgFunc, hp, hres, hcmd, hstatus]
  dsimp only
  split
  · next hok =>
    rw [if_pos hok] at ha
    exact .inl ⟨_, ha, hworks.called hs (hptr.trans htx)
      (by rw [hres, hfields]) (by rw [hres, hrows])⟩
  · next hfailed =>
    rw [if_neg hfailed] at ha
    exact hworks.after_failed hs hb ha

/-- A statement comes back. -/
theorem Runs.returns {tx : Option Nat} (h : Runs pg sent s stmt tx)
    (outcome : Pg.Outcome) :
    After host
      ({ pg with pending := [] }.returns host (.statement stmt tx) outcome)
      sent s (some stmt) (some outcome) := by
  rcases h.kind with ⟨t, rfl, htransactional, hresolves⟩ |
    ⟨rfl, htype, hloaded, htx⟩
  · have ha : s.answer host (some stmt) (some outcome) =
        s.answerStatement host stmt (some outcome) :=
      answer_statement h.aborted fun _ => hresolves
    rw [Pg.returns]
    split
    · next hok =>
      unfold Pg.reenterOk Pg.reenter
      refine Works.continue_ok
        ⟨h.outmsg, h.autocommit, rfl, h.sent, h.outbuf⟩ h.state h.block ?_
        htransactional rfl rfl hok ?_ ?_ ha
      · cases stmt.type <;> rfl
      · intro hselect
        dsimp only
        rw [hselect]
        exact ⟨rfl, rfl⟩
      · intro hcount
        dsimp only
        rcases hcount with hcount | hcount
        · rw [hcount]
        · rw [hcount]
    · next hfailed =>
      rw [Pg.reenter]
      exact Works.continue_failed
        ⟨h.outmsg, h.autocommit, rfl, h.sent, h.outbuf⟩ h.state h.block
        h.cmdtype htransactional rfl hfailed ha
  · have ha : s.answer host (some stmt) (some outcome) =
        s.answerStatement host stmt (some outcome) :=
      answer_statement h.aborted fun ht => absurd ht (by rw [htype]; decide)
    rw [Standing.answerStatement, htype] at ha
    dsimp only at ha
    rw [if_pos hloaded, Option.map_some] at ha
    rw [Pg.returns]
    exact Works.continue_called
      ⟨h.outmsg, h.autocommit, rfl, h.sent, h.outbuf⟩ h.state h.block
      (h.cmdtype.trans htype) htx rfl rfl rfl ha

/-! ## What is answered at once -/

/-- A reply of one message. -/
theorem Works.complete (h : Works pg sent []) (hstate : pg.state = .established)
    {status : Char}
    (hstatus : (if pg.transactionPtr = none then 'I' else 'T') = status)
    {tag : Bytes} :
    Done (pg.putCommandComplete tag).writesocket
      (sent ++ bytes (reply ([commandComplete tag], status))) := by
  rw [putCommandComplete_eq h.outmsg]
  exact (h.queue _).write_established hstate hstatus

theorem Works.continue_begin (h : Works pg sent [])
    (hstate : pg.state = .established)
    (hblock : pg.isintransactionblock = s.block)
    (hcmd : pg.results.cmdtype = .begin)
    (htx : pg.results.transactionPtr.isSome = s.transaction) :
    Done (pg.continuePgFunc host) (sent ++ bytes (reply
      (Standing.transactional s.transaction "25001"
        "there is already a transaction in progress" "BEGIN" 'T'))) := by
  obtain ⟨p, hp, hworks, hs, _, hptr, hres⟩ := h.continues hstate hblock
  rw [← hptr] at htx
  rw [← hres] at hcmd
  rw [Pg.continuePgFunc, hp, hcmd, ← htx, Standing.transactional]
  dsimp only
  cases hcase : p.transactionPtr with
  | none =>
      have hbegun : Works { p with
          transactionPtr := some p.nexttransactionid
          nexttransactionid := p.nexttransactionid + 1
          isintransactionblock := true } sent [] :=
        ⟨hworks.outmsg, hworks.autocommit, hworks.pending, hworks.sent,
          hworks.outbuf⟩
      exact hbegun.complete hs rfl
  | some tx =>
      dsimp only
      rw [putNoticeResponse_eq hworks.outmsg,
        putCommandComplete_eq ((queue_outmsg _ _).trans hworks.outmsg)]
      refine ((hworks.queue _).queue _).write_established hs ?_
      show (if p.transactionPtr = none then 'I' else 'T') = 'T'
      rw [hcase]
      rfl

/-- COMMIT or ROLLBACK without a transaction. -/
theorem Works.nothing (h : Works pg sent []) (hstate : pg.state = .established)
    (htx : pg.transactionPtr = none) (tag : String) :
    Done ((pg.putNoticeResponse "WARNING" "25P01"
        "there is no transaction in progress").putCommandComplete
        (ascii tag)).writesocket (sent ++ bytes (reply
      (Standing.transactional true "25P01"
        "there is no transaction in progress" tag 'I'))) := by
  rw [putNoticeResponse_eq h.outmsg,
    putCommandComplete_eq ((queue_outmsg _ _).trans h.outmsg)]
  refine ((h.queue _).queue _).write_established hstate ?_
  show (if pg.transactionPtr = none then 'I' else 'T') = 'I'
  rw [htx]
  rfl

theorem Works.continue_commit (h : Works pg sent [])
    (hstate : pg.state = .established)
    (hblock : pg.isintransactionblock = s.block)
    (hcmd : pg.results.cmdtype = .commit)
    (htx : pg.results.transactionPtr.isSome = s.transaction)
    (ha : s.answer host q o = some (Standing.transactional (!s.transaction)
      "25P01" "there is no transaction in progress" "COMMIT" 'I')) :
    After host (pg.continuePgFunc host) sent s q o := by
  obtain ⟨p, hp, hworks, hs, _, hptr, hres⟩ := h.continues hstate hblock
  rw [← hptr] at htx
  rw [← htx] at ha
  rw [Pg.continuePgFunc, hp, hres, hcmd]
  dsimp only
  cases hcase : p.transactionPtr with
  | none =>
      rw [hcase] at ha
      exact .inl ⟨_, ha, hworks.nothing hs hcase "COMMIT"⟩
  | some tx =>
      rw [hcase] at ha
      refine .inr (.inr (.inr ⟨ha, ?_⟩))
      dsimp only
      rw [Pg.sqlcommitexplicit]
      refine ⟨hworks.outmsg, hworks.autocommit, ?_, hworks.sent,
        hworks.outbuf, hs⟩
      rw [Pg.await, hworks.pending]
      rfl

theorem Works.rollbackexplicit (h : Works pg sent [])
    (hstate : pg.state = .established) :
    Done pg.continuePgRollbackexplicit
      (sent ++ bytes (reply ([commandComplete (ascii "ROLLBACK")], 'I'))) := by
  have hdeleted : Works pg.deleteTransaction sent [] :=
    ⟨h.outmsg, h.autocommit, h.pending, h.sent, h.outbuf⟩
  have hwrites : (pg.deleteTransaction.putCommandComplete
      (ascii "ROLLBACK")).writesocket.state = .established := by
    rw [putCommandComplete_eq hdeleted.outmsg,
      writesocket_state ((queue_outmsg _ _).trans hdeleted.outmsg)]
    exact hstate
  exact (hdeleted.complete hstate rfl).forget
    (by rw [hwrites]; exact ⟨by simp, by simp⟩)

theorem Works.continue_rollback (h : Works pg sent [])
    (hstate : pg.state = .established)
    (hblock : pg.isintransactionblock = s.block)
    (hcmd : pg.results.cmdtype = .rollback)
    (htx : pg.results.transactionPtr.isSome = s.transaction) :
    Done (pg.continuePgFunc host) (sent ++ bytes (reply
      (Standing.transactional (!s.transaction) "25P01"
        "there is no transaction in progress" "ROLLBACK" 'I'))) := by
  obtain ⟨p, hp, hworks, hs, _, hptr, hres⟩ := h.continues hstate hblock
  rw [← hptr] at htx
  rw [Pg.continuePgFunc, hp, hres, hcmd, ← htx]
  dsimp only
  cases hcase : p.transactionPtr with
  | none => exact hworks.nothing hs hcase "ROLLBACK"
  | some tx =>
      dsimp only
      rw [Pg.sqlrollbackexplicit]
      exact Works.rollbackexplicit ⟨hworks.outmsg, hworks.autocommit,
        hworks.pending, hworks.sent, hworks.outbuf⟩ hs

theorem CommitsBlock.returns (h : CommitsBlock pg sent) :
    Done { pg with pending := [] }.continuePgCommitexplicit
      (sent ++ bytes (reply
        ([commandComplete (ascii "COMMIT")], 'I'))) := by
  have hbase : Works { pg with pending := [], transactionPtr := none }
      sent [] := ⟨h.outmsg, h.autocommit, rfl, h.sent, h.outbuf⟩
  have hworks := hbase.queue [commandComplete (ascii "COMMIT")]
  have hput : (({ pg with pending := [] } : Pg).putCommandComplete
      (ascii "COMMIT")).deleteTransaction =
        queued { pg with pending := [], transactionPtr := none }
          [commandComplete (ascii "COMMIT")] := by
    rw [putCommandComplete_eq (show ({ pg with pending := [] } : Pg).outmsg =
      [] from h.outmsg)]
    rfl
  have hwrites := (writesocket_state hworks.outmsg).trans h.state
  rw [Pg.continuePgCommitexplicit, hput]
  exact (hworks.write_established h.state rfl).forget
    (by rw [hwrites]; exact ⟨by simp, by simp⟩)

/-! ## Queries -/

/-- Types that are answered. -/
def IsAnswered (q : Option Statement) : Prop :=
  ∀ stmt, q = some stmt →
    stmt.type ∉ [Cmd.none, .set, .create, .drop, .alter]

theorem status_standing (pg : Pg) :
    (if pg.transactionPtr = none then 'I' else 'T') =
      (standing pg).status := by
  rw [Standing.status, standing]
  cases pg.transactionPtr with
  | none => rfl
  | some tx => rfl

theorem Works.executeInTransaction (h : Works pg sent [])
    (hstate : pg.state = .established)
    (hblock : pg.isintransactionblock = s.block) (haborted : s.aborted = false)
    (hcmd : pg.results.cmdtype = stmt.type)
    (htransactional : stmt.type.isTransactional = true)
    (hresolves : stmt.resolves = true) :
    Waits host (pg.executeInTransaction stmt) sent s (some stmt) o := by
  rw [Pg.executeInTransaction]
  cases pg.transactionPtr with
  | none =>
      refine .inl ⟨stmt, some pg.nexttransactionid, rfl, h.outmsg,
        h.autocommit, ?_, h.sent, h.outbuf, hstate, hblock, haborted, hcmd,
        .inl ⟨_, rfl, htransactional, hresolves⟩⟩
      dsimp only
      rw [Pg.await, h.pending]
      rfl
  | some tx =>
      refine .inl ⟨stmt, some tx, rfl, h.outmsg, h.autocommit, ?_, h.sent,
        h.outbuf, hstate, hblock, haborted, hcmd,
        .inl ⟨_, rfl, htransactional, hresolves⟩⟩
      dsimp only
      rw [Pg.await, h.pending]
      rfl

theorem Works.execute (h : Works pg sent []) (hstate : pg.state = .established)
    (hresults : pg.results.transactionPtr = none)
    (hresolves : stmt.type.isTransactional = true → stmt.resolves = true)
    (hanswered : IsAnswered (some stmt))
    (hexec : pg.execute host stmt = some pg') :
    After host pg' sent (standing pg) (some stmt) none := by
  have haborted : (standing pg).aborted = false := by
    rw [standing, hstate]
    rfl
  have ha : (standing pg).answer host (some stmt) none =
      (standing pg).answerStatement host stmt none :=
    answer_statement haborted hresolves
  have hnot := hanswered stmt rfl
  obtain ⟨p, hp, hworks, hs, hb, htx, hcmd, hnone⟩ :
      ∃ p, { pg with results := { pg.results with cmdtype := stmt.type } } = p ∧
        Works p sent [] ∧ p.state = .established ∧
        p.isintransactionblock = (standing pg).block ∧
        p.transactionPtr.isSome = (standing pg).transaction ∧
        p.results.cmdtype = stmt.type ∧ p.results.transactionPtr = none :=
    ⟨{ pg with results := { pg.results with cmdtype := stmt.type } }, rfl,
      ⟨h.outmsg, h.autocommit, h.pending, h.sent, h.outbuf⟩, hstate,
      rfl, rfl, rfl, hresults⟩
  rw [Pg.execute, hp] at hexec
  rw [Standing.answerStatement] at ha
  cases htype : stmt.type with
  | select | update | delete =>
      rw [htype] at hexec hcmd
      obtain rfl := Option.some.inj hexec
      have htransactional : stmt.type.isTransactional = true := by
        rw [htype]
        rfl
      exact .inr (hworks.executeInTransaction hs hb haborted
        (hcmd.trans htype.symm) htransactional (hresolves htransactional))
  | insert =>
      rw [htype] at hexec hcmd
      dsimp only at hexec
      have htransactional : stmt.type.isTransactional = true := by
        rw [htype]
        rfl
      split at hexec
      · obtain rfl := Option.some.inj hexec
        exact .inr (hworks.executeInTransaction hs hb haborted
          (hcmd.trans htype.symm) htransactional (hresolves htransactional))
      · exact absurd hexec (by simp)
  | storedprocedure =>
      rw [htype] at hexec hcmd ha
      dsimp only at hexec ha
      split at hexec
      · next hloaded =>
        obtain rfl := Option.some.inj hexec
        refine .inr (.inl ⟨stmt, none, rfl, hworks.outmsg, hworks.autocommit,
          ?_, hworks.sent, hworks.outbuf, hs, hb, haborted,
          hcmd.trans htype.symm, .inr ⟨rfl, htype, hloaded, hnone⟩⟩)
        rw [Pg.await, hworks.pending]
        rfl
      · next hloaded =>
        obtain rfl := Option.some.inj hexec
        rw [if_neg hloaded] at ha
        obtain ⟨p₁, hp₁, hworks₁, hs₁, hb₁, _, hres⟩ := Works.continues
          (show Works { p with results := { p.results with
            transactionPtr := p.transactionPtr, statementStatus := 1 } }
            sent [] from
              ⟨hworks.outmsg, hworks.autocommit, hworks.pending, hworks.sent,
                hworks.outbuf⟩) hs hb
        rw [Pg.reenter, Pg.continuePgFunc, hp₁, hres]
        dsimp only
        rw [hcmd]
        dsimp only
        rw [if_neg (by decide)]
        exact hworks₁.after_failed hs₁ hb₁ ha
  | begin =>
      rw [htype] at hexec ha
      obtain rfl := Option.some.inj hexec
      refine .inl ⟨_, ha, ?_⟩
      unfold Pg.reenterOk Pg.reenter
      exact Works.continue_begin ⟨hworks.outmsg, hworks.autocommit,
        hworks.pending, hworks.sent, hworks.outbuf⟩ hs hb rfl htx
  | commit =>
      rw [htype] at hexec ha
      obtain rfl := Option.some.inj hexec
      unfold Pg.reenterOk Pg.reenter
      exact Works.continue_commit ⟨hworks.outmsg, hworks.autocommit,
        hworks.pending, hworks.sent, hworks.outbuf⟩ hs hb rfl htx ha
  | rollback =>
      rw [htype] at hexec ha
      obtain rfl := Option.some.inj hexec
      refine .inl ⟨_, ha, ?_⟩
      unfold Pg.reenterOk Pg.reenter
      exact Works.continue_rollback ⟨hworks.outmsg, hworks.autocommit,
        hworks.pending, hworks.sent, hworks.outbuf⟩ hs hb rfl htx
  | none | set | create | drop | alter =>
      rw [htype] at hnot
      exact absurd hnot (by decide)

/-- A query of an established session. -/
theorem Works.executeStatement (h : Works pg sent [])
    (hstate : pg.state = .established) (hanswered : IsAnswered q)
    (hexec : pg.executeStatement host q = some pg') :
    After host pg' sent (standing pg) q none := by
  have haborted : (standing pg).aborted = false := by
    rw [standing, hstate]
    rfl
  cases q with
  | none =>
      obtain rfl := Option.some.inj hexec
      refine .inl ⟨_, by rw [Standing.answer, haborted, if_neg (by simp)], ?_⟩
      rw [putErrorResponse_eq h.outmsg]
      exact (h.queue _).write_established hstate (status_standing pg)
  | some stmt =>
      rw [Pg.executeStatement] at hexec
      split at hexec
      · next hno =>
        obtain rfl := Option.some.inj hexec
        refine .inl ⟨_, ?_, h.failed hstate
          (show pg.isintransactionblock = (standing pg).block from rfl) _ _⟩
        rw [Standing.answer, haborted, if_neg (by simp), if_pos hno]
      · next hyes =>
        have hresolves : stmt.type.isTransactional = true →
            stmt.resolves = true := by
          intro htransactional
          rw [htransactional, Bool.true_and] at hyes
          simpa using hyes
        have hworks : Works { pg with
            results := {}
            command_autocommit := pg.transactionPtr.isNone } sent [] :=
          ⟨h.outmsg, h.autocommit, h.pending, h.sent, h.outbuf⟩
        exact hworks.execute hstate rfl hresolves hanswered hexec

/-- A query in a block that has failed. -/
theorem Works.contAborted (h : Works pg sent []) (hstate : pg.state = .aborted)
    (q : Option Statement) :
    Done (pg.contAborted q)
      (sent ++ bytes (reply ((standing pg).answerAborted q))) := by
  cases q with
  | none =>
      rw [Pg.contAborted, putErrorResponse_eq h.outmsg]
      exact (h.queue _).write_aborted hstate
  | some stmt =>
      rw [Pg.contAborted, Standing.answerAborted]
      split
      · rw [putCommandComplete_eq h.outmsg]
        have hworks := h.queue [commandComplete (ascii "ROLLBACK")]
        have hstays : Works
            { queued pg [commandComplete (ascii "ROLLBACK")] with
              state := .established
              isintransactionblock := false }
            sent [commandComplete (ascii "ROLLBACK")] :=
          ⟨hworks.outmsg, hworks.autocommit, hworks.pending, hworks.sent,
            hworks.outbuf⟩
        exact hstays.write_established rfl (status_standing pg)
      · rw [putErrorResponse_eq h.outmsg]
        exact (h.queue _).write_aborted hstate

/-! ## Replies are complete -/

theorem type_error (severity code message : String) :
    (errorResponse severity code message).type ≠ 'Z' := by
  simp [errorResponse]

theorem failed_type (s : Standing) (code message : String) :
    ∀ m ∈ (s.failed code message).1, m.type ≠ 'Z' := by
  intro m hm
  rw [List.mem_singleton.mp hm]
  exact type_error _ _ _

theorem failedWith_type (s : Standing) (status : Int) :
    ∀ m ∈ (s.failedWith status).1, m.type ≠ 'Z' := by
  rw [Standing.failedWith]
  split
  · exact failed_type _ _ _
  · split
    · exact failed_type _ _ _
    · split
      · exact failed_type _ _ _
      · exact failed_type _ _ _

theorem complete_type (tag : Bytes) :
    ∀ m ∈ [commandComplete tag], m.type ≠ 'Z' := by
  intro m hm
  rw [List.mem_singleton.mp hm]
  simp [commandComplete]

theorem rows_type (host : Host) (outcome : Pg.Outcome) :
    ∀ m ∈ Standing.rows host outcome, m.type ≠ 'Z' := by
  intro m hm
  rcases List.mem_cons.mp hm with rfl | hm
  · simp [rowDescription]
  · rcases List.mem_append.mp hm with hm | hm
    · obtain ⟨row, _, rfl⟩ := List.mem_map.mp hm
      simp [dataRow]
    · exact complete_type _ m hm

theorem transactional_type (nothing : Bool) (code message tag : String)
    (status : Char) :
    ∀ m ∈ (Standing.transactional nothing code message tag status).1,
      m.type ≠ 'Z' := by
  intro m hm
  rw [Standing.transactional] at hm
  cases nothing with
  | false => exact complete_type _ m hm
  | true =>
      rcases List.mem_cons.mp hm with rfl | hm
      · simp [noticeResponse]
      · exact complete_type _ m hm

theorem answerStatement_type {a : Answer}
    (h : s.answerStatement host stmt o = some a) :
    ∀ m ∈ a.1, m.type ≠ 'Z' := by
  rw [Standing.answerStatement] at h
  cases htype : stmt.type with
  | begin | commit | rollback =>
      rw [htype] at h
      obtain rfl := Option.some.inj h
      exact transactional_type _ _ _ _ _
  | select | insert | update | delete =>
      rw [htype] at h
      obtain ⟨outcome, _, rfl⟩ := Option.map_eq_some_iff.mp h
      split
      · first
          | exact rows_type host outcome
          | exact complete_type _
      · exact failedWith_type _ _
  | storedprocedure =>
      rw [htype] at h
      dsimp only at h
      split at h
      · obtain ⟨outcome, _, rfl⟩ := Option.map_eq_some_iff.mp h
        split
        · exact rows_type host outcome
        · exact failedWith_type _ _
      · obtain rfl := Option.some.inj h
        exact failedWith_type _ _
  | none | set | create | drop | alter =>
      rw [htype] at h
      exact absurd h (by simp)

theorem answer_type {a : Answer} (h : s.answer host q o = some a) :
    ∀ m ∈ a.1, m.type ≠ 'Z' := by
  unfold Standing.answer at h
  split at h
  · obtain rfl := Option.some.inj h
    cases q with
    | none => exact failed_type s "42601" "syntax error, aborted"
    | some stmt =>
        rw [Standing.answerAborted]
        split
        · exact complete_type _
        · exact failed_type s "25P02" _
  · split at h
    · obtain rfl := Option.some.inj h
      exact failed_type s "42601" "syntax error"
    · split at h
      · obtain rfl := Option.some.inj h
        exact failed_type _ _ _
      · exact answerStatement_type h

theorem endsInReady_of_answer {a : Answer} (h : s.answer host q o = some a) :
    (Asked.query s q o).EndsInReady host := by
  refine ⟨a.1, a.2, ?_, answer_type h⟩
  rw [Asked.reply, h]
  rfl

/-! ## The invariant -/

/-- All replies have been given to the socket, or all but that of the last
query, which waits. -/
structure Inv (host : Host) (l : Line) : Prop where
  stream : Done l.pg (replies host l.asked) ∨
    ∃ asked s q o, l.asked = asked ++ [.query s q o] ∧
      Waits host l.pg (replies host asked) s q o
  ready : ∀ a ∈ answered l, a.EndsInReady host

theorem Waits.pending (h : Waits host pg sent s q o) :
    ∃ p, pg.pending = [p] ∧ pg.sent = sent := by
  rcases h with ⟨stmt, tx, _, h⟩ | ⟨ms, _, h⟩ | ⟨_, h⟩
  · exact ⟨_, h.pending, h.sent⟩
  · exact ⟨_, h.pending, h.sent⟩
  · exact ⟨_, h.pending, h.sent⟩

theorem Inv.integrity {l : Line} (h : Inv host l) : Integrity host l := by
  rcases h.stream with hdone | ⟨asked, s, q, o, hasked, hwaits⟩
  · have hall : answered l = l.asked := if_pos hdone.pending
    obtain ⟨rest, hsent, hdrained, _⟩ := hdone.leaves
    refine ⟨?_, fun hfalse => ?_, h.ready⟩
    · rw [hall]
      exact ⟨rest, hsent⟩
    · rw [hall, ← hsent, (hdrained hfalse).1, List.append_nil]
  · obtain ⟨p, hpending, hsent⟩ := hwaits.pending
    have hall : answered l = asked := by
      rw [answered, hpending, if_neg (by simp), hasked,
        List.dropLast_concat]
    exact ⟨by rw [hall, hsent], fun _ => by rw [hall, hsent], h.ready⟩

theorem replies_concat (host : Host) (asked : List Asked) (a : Asked) :
    replies host (asked ++ [a]) = replies host asked ++ a.reply host := by
  rw [replies, List.flatMap_append, List.flatMap_singleton, replies]

/-- The last query has been answered, or still waits. -/
theorem After.inv {asked : List Asked}
    (h : After host pg (replies host asked) s q o)
    (hready : ∀ a ∈ asked, a.EndsInReady host) :
    Inv host ⟨pg, asked ++ [.query s q o]⟩ := by
  rcases h with ⟨a, ha, hdone⟩ | hwaits
  · have hreply : (Asked.query s q o).reply host = bytes (reply a) := by
      rw [Asked.reply, ha]
      rfl
    refine ⟨.inl ?_, fun b hb => ?_⟩
    · rw [replies_concat, hreply]
      exact hdone
    · rw [answered, if_pos hdone.pending] at hb
      rcases List.mem_append.mp hb with hb | hb
      · exact hready b hb
      · rw [List.mem_singleton.mp hb]
        exact endsInReady_of_answer ha
  · obtain ⟨p, hpending, _⟩ := hwaits.pending
    refine ⟨.inr ⟨asked, s, q, o, rfl, hwaits⟩, fun b hb => ?_⟩
    rw [answered, hpending, if_neg (by simp), List.dropLast_concat] at hb
    exact hready b hb

/-! ## The steps -/

theorem Waits.state (h : Waits host pg sent s q o) :
    pg.state = .established := by
  rcases h with ⟨stmt, tx, _, h⟩ | ⟨ms, _, h⟩ | ⟨_, h⟩
  · exact h.state
  · exact h.state
  · exact h.state

/-- The results of the calls of `send` to come do not matter. -/
theorem Inv.sends {asked : List Asked} (h : Inv host ⟨pg, asked⟩)
    (sends : List Send) : Inv host ⟨{ pg with sends }, asked⟩ := by
  refine ⟨?_, h.ready⟩
  rcases h.stream with hdone | ⟨before, s, q, o, hasked, hwaits⟩
  · exact .inl ⟨hdone.outmsg, hdone.autocommit, hdone.isopen, hdone.pending,
      hdone.leaves⟩
  · refine .inr ⟨before, s, q, o, hasked, ?_⟩
    rcases hwaits with ⟨stmt, tx, hq, h⟩ | ⟨ms, ha, h⟩ | ⟨ha, h⟩
    · exact .inl ⟨stmt, tx, hq, h.outmsg, h.autocommit, h.pending, h.sent,
        h.outbuf, h.state, h.block, h.aborted, h.cmdtype, h.kind⟩
    · exact .inr (.inl ⟨ms, ha, h.outmsg, h.autocommit, h.pending, h.sent,
        h.outbuf, h.state⟩)
    · exact .inr (.inr ⟨ha, h.outmsg, h.autocommit, h.pending, h.sent,
        h.outbuf, h.state⟩)

/-- Nothing is left, and a new reply can be put together. -/
theorem Done.works {stream : Bytes} (h : Done pg stream)
    (hfalse : pg.epollout = false) :
    Works { pg with outbuf := [] } stream [] := by
  obtain ⟨rest, hsent, hdrained, _⟩ := h.leaves
  rw [(hdrained hfalse).1, List.append_nil] at hsent
  exact ⟨h.outmsg, h.autocommit, h.pending, hsent, rfl⟩

/-- What is written before a session is established goes out as it is. -/
theorem Done.write_raw {stream : Bytes} (h : Done pg stream)
    (hfalse : pg.epollout = false)
    (hstate : pg.state = .begin ∨ pg.state = .auth) (out : Bytes)
    (startupArgs : Bytes → Bytes) :
    Done { pg with outbuf := out, startupArgs }.writesocket
      (stream ++ out) ∧
    ({ pg with outbuf := out, startupArgs } : Pg).writesocket.state =
      pg.state := by
  obtain ⟨rest, hsent, hdrained, _⟩ := h.leaves
  rw [(hdrained hfalse).1, List.append_nil] at hsent
  obtain ⟨outbuf, taken, epollout, heq, htaken, hrest⟩ :=
    writesocket_eq (show ({ pg with outbuf := out, startupArgs } : Pg).outmsg =
      [] from h.outmsg)
  have hready : ready { pg with outbuf := out, startupArgs } = [] := by
    rw [ready]
    rcases hstate with hstate | hstate
    · rw [show ({ pg with outbuf := out, startupArgs } : Pg).state = .begin
        from hstate]
      rfl
    · rw [show ({ pg with outbuf := out, startupArgs } : Pg).state = .auth
        from hstate]
      rfl
  rw [hready, show bytes [] = [] from rfl, List.append_nil] at htaken
  rw [heq]
  refine ⟨⟨h.outmsg, h.autocommit, h.isopen, h.pending, outbuf, ?_, ?_, ?_⟩,
    rfl⟩
  · rw [← hsent]
    exact htaken
  · exact fun hfalse => ⟨hrest hfalse, hrest hfalse⟩
  · exact fun _ => rfl

/-- `EPOLLOUT` before a session is established. -/
theorem Done.rewrite {stream : Bytes} (h : Done pg stream)
    (hstate : pg.state = .begin ∨ pg.state = .auth) :
    Done pg.rewritesocket stream := by
  obtain ⟨rest, hsent, _, hleft⟩ := h.leaves
  obtain ⟨outbuf, taken, epollout, heq, htaken, hrest⟩ :=
    rewritesocket_eq h.outmsg
  have hready : ready pg = [] := by
    rw [ready]
    rcases hstate with hstate | hstate
    · rw [hstate]
      rfl
    · rw [hstate]
      rfl
  rw [hready, show bytes [] = [] from rfl, List.append_nil, hleft hstate,
    hsent] at htaken
  rw [heq]
  exact ⟨h.outmsg, h.autocommit, h.isopen, h.pending, outbuf, htaken,
    fun hfalse => ⟨hrest hfalse, hrest hfalse⟩, fun _ => rfl⟩

/-- The session goes on in another state, with nothing left behind. -/
theorem Done.moves {stream : Bytes} (h : Done pg stream)
    (hstate : pg.state = .begin ∨ pg.state = .auth) {state : PgState}
    (hopen : state ≠ .exiting) : Done { pg with state } stream := by
  obtain ⟨rest, hsent, hdrained, hleft⟩ := h.leaves
  exact ⟨h.outmsg, h.autocommit, hopen, h.pending, rest, hsent, hdrained,
    fun _ => hleft hstate⟩

/-- A reply that is no query's. -/
theorem Inv.replied {asked : List Asked} {a : Asked}
    (hdone : Done pg (replies host asked ++ a.reply host))
    (ha : a.EndsInReady host) (hready : ∀ b ∈ asked, b.EndsInReady host) :
    Inv host ⟨pg, asked ++ [a]⟩ := by
  refine ⟨.inl ?_, fun b hb => ?_⟩
  · rw [replies_concat]
    exact hdone
  · rw [answered, if_pos hdone.pending] at hb
    rcases List.mem_append.mp hb with hb | hb
    · exact hready b hb
    · rw [List.mem_singleton.mp hb]
      exact ha

/-- A session that is in one of these states waits for nothing. -/
theorem Inv.done {asked : List Asked} (h : Inv host ⟨pg, asked⟩)
    (hidle : pg.state ≠ .established ∨ pg.pending = []) :
    Done pg (replies host asked) ∧ ∀ a ∈ asked, a.EndsInReady host := by
  rcases h.stream with hdone | ⟨before, s, q, o, _, hwaits⟩
  · have hall : answered ⟨pg, asked⟩ = asked := if_pos hdone.pending
    have hready := h.ready
    rw [hall] at hready
    exact ⟨hdone, hready⟩
  · obtain ⟨p, hpending, _⟩ := hwaits.pending
    rcases hidle with hidle | hidle
    · exact absurd hwaits.state hidle
    · exact absurd (hpending.symm.trans hidle) (by simp)

theorem inv_sslRequest {asked : List Asked} (h : Inv host ⟨pg, asked⟩)
    (hfalse : pg.epollout = false)
    (hstep : handle host pg .sslRequest = some pg') :
    Inv host ⟨pg', asked ++ [.sslRequest]⟩ := by
  rw [handle] at hstep
  split at hstep
  · next hstate =>
    obtain rfl := Option.some.inj hstep
    obtain ⟨hdone, hready⟩ := h.done (.inl (by rw [hstate]; simp))
    have hwrite :=
      (hdone.write_raw hfalse (.inl hstate) (ascii "N") pg.startupArgs).1
    exact Inv.replied hwrite trivial hready
  · exact absurd hstep (by simp)

theorem inv_startup {asked : List Asked} {startupArgs : Bytes → Bytes}
    (h : Inv host ⟨pg, asked⟩) (hfalse : pg.epollout = false)
    (hstep : handle host pg (.startup startupArgs) = some pg') :
    Inv host ⟨pg', asked ++ [.startup]⟩ := by
  rw [handle] at hstep
  split at hstep
  · next hstate =>
    obtain ⟨hdone, hready⟩ := h.done (.inl (by rw [hstate]; simp))
    have hput : (({ pg with outbuf := [], startupArgs } : Pg).putInt32
        3).replymsg 'R' = { pg with
          outbuf := BackendMessage.bytes ⟨'R', htobe 4 3⟩, startupArgs } := by
      rw [Pg.putInt32, replymsg_put (show ({ pg with
        outbuf := [], startupArgs } : Pg).outmsg = [] from hdone.outmsg),
        queued, bytes_singleton]
      rfl
    rw [hput] at hstep
    obtain rfl := Option.some.inj hstep
    obtain ⟨hwrite, hstays⟩ := hdone.write_raw hfalse (.inl hstate)
      (BackendMessage.bytes ⟨'R', htobe 4 3⟩) startupArgs
    exact Inv.replied (hwrite.moves (.inl (hstays.trans hstate)) (by simp))
      trivial hready
  · exact absurd hstep (by simp)

theorem inv_password {asked : List Asked} (h : Inv host ⟨pg, asked⟩)
    (hfalse : pg.epollout = false)
    (hstep : handle host pg .password = some pg') :
    Inv host ⟨pg', asked⟩ := by
  rw [handle] at hstep
  split at hstep
  · next hstate =>
    obtain rfl := Option.some.inj hstep
    obtain ⟨hdone, hready⟩ := h.done (.inl (by rw [hstate]; simp))
    obtain ⟨rest, hsent, hdrained, _⟩ := hdone.leaves
    refine ⟨.inl ⟨hdone.outmsg, hdone.autocommit, hdone.isopen,
      hdone.pending, rest, hsent, fun hf => ⟨(hdrained hf).1, rfl⟩,
      fun _ => (hdrained hfalse).1.symm⟩, fun a ha => ?_⟩
    rw [answered, if_pos hdone.pending] at ha
    exact hready a ha
  · exact absurd hstep (by simp)

theorem inv_login {asked : List Asked} {ok : Bool}
    (h : Inv host ⟨pg, asked⟩) (hfalse : pg.epollout = false)
    (hstep : handle host pg (.login ok) = some pg') :
    Inv host ⟨pg', asked ++
      [.login ok (pg.startupArgs (ascii "username"))]⟩ := by
  rw [handle] at hstep
  split at hstep
  · next hstate =>
    obtain rfl := Option.some.inj hstep
    obtain ⟨hdone, hready⟩ := h.done (.inl (by rw [hstate]; simp))
    obtain ⟨rest, _, hdrained, _⟩ := hdone.leaves
    have hempty : pg.outbuf = [] := (hdrained hfalse).2
    have hqueued : ∀ ms, queued pg ms = { pg with outbuf := bytes ms } := by
      intro ms
      rw [queued, hempty, List.nil_append]
    rw [Pg.continueLogin]
    cases ok with
    | false =>
        rw [if_neg (by simp), putErrorResponse_eq hdone.outmsg, hqueued]
        have hwrite := (hdone.write_raw hfalse (.inr hstate)
          (bytes [errorResponse "FATAL" "28P01" "authenticationfailure"])
          pg.startupArgs).1
        exact Inv.replied hwrite trivial hready
    | true =>
        rw [if_pos rfl, Pg.putAuthenticationOk,
          putGreeting_eq hdone.outmsg, hqueued]
        obtain ⟨hwrite, hstays⟩ := hdone.write_raw hfalse (.inr hstate)
          (bytes (reply (authenticationOk host
            (pg.startupArgs (ascii "username")), 'I'))) pg.startupArgs
        exact Inv.replied (hwrite.moves (.inr (hstays.trans hstate))
          (by simp)) trivial hready
  · exact absurd hstep (by simp)

theorem inv_epollout {asked : List Asked} (h : Inv host ⟨pg, asked⟩)
    (hstate : pg.state = .begin ∨ pg.state = .auth) :
    Inv host ⟨pg.rewritesocket, asked⟩ := by
  have hidle : pg.state ≠ .established := by
    rcases hstate with hstate | hstate
    · rw [hstate]
      simp
    · rw [hstate]
      simp
  obtain ⟨hdone, hready⟩ := h.done (.inl hidle)
  have hagain := hdone.rewrite hstate
  refine ⟨.inl hagain, fun a ha => ?_⟩
  rw [answered, if_pos hagain.pending] at ha
  exact hready a ha

theorem inv_query {asked : List Asked} {query : Option Statement}
    (h : Inv host ⟨pg, asked⟩) (hfalse : pg.epollout = false)
    (hidle : pg.pending = [])
    (hanswered : pg.state = .aborted ∨ IsAnswered query)
    (hstep : handle host pg (.query query) = some pg') :
    Inv host ⟨pg', asked ++ [.query (standing pg) query none]⟩ := by
  obtain ⟨hdone, hready⟩ := h.done (.inr hidle)
  have hworks := hdone.works hfalse
  rw [handle] at hstep
  split at hstep
  · next hstate =>
    have hanswered : IsAnswered query := by
      rcases hanswered with habort | hanswered
      · rw [hstate] at habort
        exact absurd habort (by simp)
      · exact hanswered
    exact (hworks.executeStatement hstate hanswered hstep).inv hready
  · next hstate =>
    obtain rfl := Option.some.inj hstep
    have haborted : (standing pg).aborted = true := by
      rw [standing, hstate]
      rfl
    have hafter : After host
        (Pg.contAborted { pg with outbuf := [] } query) (replies host asked)
        (standing pg) query none := by
      refine .inl ⟨_, ?_, hworks.contAborted hstate query⟩
      unfold Standing.answer
      exact if_pos haborted
    exact hafter.inv hready
  · exact absurd hstep (by simp)

theorem inv_returns {asked : List Asked} {i : Nat} {outcome : Pg.Outcome}
    (h : Inv host ⟨pg, asked⟩)
    (hstep : handle host pg (.returns i outcome) = some pg') :
    Inv host ⟨pg', note ⟨pg, asked⟩ (.returns i outcome)⟩ := by
  rcases h.stream with hdone | ⟨before, s, q, o, rfl, hwaits⟩
  · rw [handle, show pg.pending = [] from hdone.pending] at hstep
    exact absurd hstep (by simp)
  · obtain ⟨p, hpending, _⟩ := hwaits.pending
    have hready : ∀ a ∈ before, a.EndsInReady host := by
      have hready := h.ready
      rw [answered, hpending, if_neg (by simp), List.dropLast_concat] at hready
      exact hready
    have hi : i = 0 := by
      cases i with
      | zero => rfl
      | succ i =>
          rw [handle, show pg.pending = [p] from hpending] at hstep
          exact absurd hstep (by simp)
    subst hi
    rw [handle, show pg.pending = [p] from hpending] at hstep
    obtain rfl := Option.some.inj hstep
    rw [note]
    dsimp only
    rw [show pg.pending = [p] from hpending]
    rcases hwaits with ⟨stmt, tx, rfl, hruns⟩ | ⟨ms, ha, hcommits⟩ |
      ⟨ha, hcommits⟩
    · obtain rfl : p = .statement stmt tx := by
        rw [hruns.pending] at hpending
        exact (List.singleton_inj.mp hpending).symm
      have hafter : After host (Pg.returns host { pg with pending := [] }
          (.statement stmt tx) outcome) (replies host before) s (some stmt)
          (some outcome) := hruns.returns outcome
      have hinv := hafter.inv hready
      simpa [settled] using hinv
    · obtain rfl : p = .commitimplicit := by
        rw [hcommits.pending] at hpending
        exact (List.singleton_inj.mp hpending).symm
      exact After.inv (.inl ⟨_, ha, hcommits.returns⟩) hready
    · obtain rfl : p = .commitexplicit := by
        rw [hcommits.pending] at hpending
        exact (List.singleton_inj.mp hpending).symm
      exact After.inv (.inl ⟨_, ha, hcommits.returns⟩) hready

theorem inv_arrive {l l' : Line} {e : Event × List Send}
    (h : Inv host l) (hturn : InTurn l e) (hstep : arrive host l e = some l') :
    Inv host l' := by
  obtain ⟨pg, asked⟩ := l
  obtain ⟨event, sends⟩ := e
  obtain ⟨pg', hhandle, rfl⟩ := Option.map_eq_some_iff.mp hstep
  have h := h.sends sends
  rw [step] at hhandle
  cases event with
  | sslRequest => exact inv_sslRequest h hturn hhandle
  | startup startupArgs => exact inv_startup h hturn hhandle
  | password => exact inv_password h hturn hhandle
  | login ok =>
      have hinv := inv_login h hturn hhandle
      exact hinv
  | query query =>
      have hinv := inv_query h hturn.1 hturn.2.1 hturn.2.2 hhandle
      exact hinv
  | epollout =>
      obtain rfl := Option.some.inj hhandle
      exact inv_epollout h hturn
  | returns i outcome =>
      have hinv := inv_returns h hhandle
      exact hinv

/-- In a run in which commands take turns and no established session is kept
waiting, the socket takes the replies, each with its one `ReadyForQuery` at
the end. -/
theorem allStates_integrity {es : List (Event × List Send)} (host : Host)
    (h : AllSteps (arrive host) InTurn {} es) :
    AllStates (arrive host) (Integrity host) {} es := by
  have hstart : Inv host {} := by
    refine ⟨.inl ⟨rfl, rfl, by simp, rfl, [], rfl, fun _ => ⟨rfl, rfl⟩,
      fun _ => rfl⟩, fun a ha => absurd ha List.not_mem_nil⟩
  have hall : AllStates (arrive host) (Inv host) {} es :=
    AllSteps.allStates (fun _ _ _ hturn hinv hstep =>
      inv_arrive hinv hturn hstep) h hstart
  exact hall.imp fun _ hinv => hinv.integrity

/-! ## A greeting that is cut, and a reply that is -/

/-- Floating point numbers are printed as nothing, in a time zone without a
name. -/
def bareHost : Host := ⟨fun _ => [], []⟩

/-- The request for the password goes out in two pieces. -/
def cutGreeting : List (Event × List Send) :=
  [(.startup fun _ => [], [.sent 2, .again]), (.epollout, []), (.password, []),
    (.login true, []), (.query (some { type := .begin }), [])]

instance (l : Line) (e : Event × List Send) : Decidable (InTurn l e) := by
  obtain ⟨event, sends⟩ := e
  cases event with
  | epollout =>
      exact inferInstanceAs (Decidable (l.pg.state = .begin ∨ l.pg.state = .auth))
  | returns => exact isTrue trivial
  | query query =>
      exact inferInstanceAs (Decidable (l.pg.epollout = false ∧
        l.pg.pending = [] ∧ (l.pg.state = .aborted ∨ ∀ stmt ∈ query,
          stmt.type ∉ [Cmd.none, .set, .create, .drop, .alter])))
  | _ => exact inferInstanceAs (Decidable (l.pg.epollout = false))

theorem cutGreeting_integrity :
    AllStates (arrive bareHost) (Integrity bareHost) {} cutGreeting :=
  allStates_integrity bareHost (by decide +kernel)

/-- The socket would block at the reply to BEGIN, and takes it later. -/
def cutReply : List (Event × List Send) :=
  [(.startup fun _ => [], []), (.password, []), (.login true, []),
    (.query (some { type := .begin }), [.again]), (.epollout, [])]

theorem cutReply_not_integrity :
    ¬ ∀ (host : Host) (es : List (Event × List Send)),
      AllStates (arrive host) (Integrity host) {} es := by
  intro h
  have hall := h bareHost cutReply
  have hruns : (run (arrive bareHost) {} cutReply).any (fun l =>
      l.pg.epollout = false ∧
        l.pg.sent.length ≠ (replies bareHost (answered l)).length) = true := by
    decide +kernel
  obtain ⟨l, hrun, hlen⟩ := (Option.any_eq_true _ _).mp hruns
  have hlen := of_decide_eq_true hlen
  have hintegrity := allStates_iff_run.mp hall cutReply List.prefix_rfl l hrun
  exact hlen.2 (congrArg List.length (hintegrity.drained hlen.1))

end Infinisql.Proofs.Output
