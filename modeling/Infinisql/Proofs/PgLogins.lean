import Infinisql.Lib.Run
import Infinisql.Ref.PgLogin

/-!
# Which session a login reply reaches

A reply finds its operation by the id and its session by the descriptor. As
long as no session is closed between its password message and the reply, the
session that has the descriptor is the one that asked. The invariant ties the
three together: a pending operation names a descriptor, the descriptor has a
session, and the session is the one whose password message made the
operation. One session asks for one login at a time, since more bytes after
the password message close it, so a session that a reply closes leaves no
other login behind.

When a session is closed in between, the reply goes to whoever has the
descriptor then. When nobody has, the operation stays in `pendingOperations`.
-/

namespace Infinisql.Proofs

open Infinisql.Lib Infinisql.Ref

/-! ## The statement -/

/-- A session that is established has the ids that its own password message
was answered with. -/
def OwnIds (ta : LoginAgent) : Prop :=
  ∀ id, (ta.objects id).state = .established →
    ∃ operationid reply, ta.asked operationid = some id ∧
      ta.answered operationid = some reply ∧ reply.ok = true ∧
      (ta.objects id).userid = reply.userid ∧
      (ta.objects id).domainid = reply.domainid

/-- An answered operation is not pending. -/
def AnsweredGone (ta : LoginAgent) : Prop :=
  ∀ operationid, ta.answered operationid ≠ none →
    ta.pendingOperations operationid = none

/-- Nothing is read from a socket whose login is not answered, and it does not
fail. -/
def WaitsForLogin (ta : LoginAgent) : LoginEvent → Prop
  | .socketconnected _ | .operation _ _ _ => True
  | .socket sockfd newdata _ => newdata.length = 0 ∨
      ∀ operationid op, ta.pendingOperations operationid = some op →
        op.sockfd ≠ sockfd
  | .hangup sockfd =>
      ∀ operationid op, ta.pendingOperations operationid = some op →
        op.sockfd ≠ sockfd

/-! ## What a session does -/

theorem state_initcmd {pg pg' : Pg} {newdata : Bytes} {r : Pg.Initcmd}
    (h : pg.initcmd newdata = (r, pg')) : pg'.state = pg.state ∧
      pg'.sockfd = pg.sockfd ∧ pg'.userid = pg.userid ∧
      pg'.domainid = pg.domainid := by
  have hreceived : ∀ {p : Pg}, p.received = (r, pg') → pg' = p := by
    intro p hp
    rw [Pg.received] at hp
    split at hp
    · exact (Prod.mk.inj hp).2.symm
    · split at hp
      · exact (Prod.mk.inj hp).2.symm
      · exact (Prod.mk.inj hp).2.symm
  rw [Pg.initcmd] at h
  split at h
  · dsimp only at h
    generalize (if pg.state = .begin then 4 else 5) = least at h
    split at h
    · obtain ⟨_, rfl⟩ := Prod.mk.inj h
      exact ⟨rfl, rfl, rfl, rfl⟩
    · split at h
      · obtain rfl := hreceived h
        exact ⟨rfl, rfl, rfl, rfl⟩
      · obtain rfl := hreceived h
        exact ⟨rfl, rfl, rfl, rfl⟩
  · obtain rfl := hreceived h
    exact ⟨rfl, rfl, rfl, rfl⟩

/-- What a session keeps through a request that it goes on from. -/
structure KeepsIds (pg pg' : Pg) : Prop where
  sockfd : pg'.sockfd = pg.sockfd
  established : pg'.state = .established → pg.state = .established
  userid : pg'.userid = pg.userid
  domainid : pg'.domainid = pg.domainid

theorem KeepsIds.refl (pg : Pg) : KeepsIds pg pg := ⟨rfl, id, rfl, rfl⟩

theorem KeepsIds.trans {a b c : Pg} (h : KeepsIds a b) (h' : KeepsIds b c) :
    KeepsIds a c :=
  ⟨h'.sockfd.trans h.sockfd, fun hc => h.established (h'.established hc),
    h'.userid.trans h.userid, h'.domainid.trans h.domainid⟩

theorem keepsIds_contBegin {pg pg' : Pg} {sent : Bool}
    (h : pg.contBegin sent = .goOn pg') : KeepsIds pg pg' := by
  rw [Pg.contBegin] at h
  split at h
  · exact absurd h (by simp)
  · split at h
    · split at h
      · exact absurd h (by simp)
      · injection h with h
        subst h
        exact ⟨rfl, id, rfl, rfl⟩
    · split at h
      · exact absurd h (by simp)
      · split at h
        · exact absurd h (by simp)
        · split at h
          · exact absurd h (by simp)
          · split at h
            · exact absurd h (by simp)
            · injection h with h
              subst h
              exact ⟨rfl, fun hs => absurd hs (by simp), rfl, rfl⟩

theorem contBegin_ne_login {pg pg' : Pg} {sent : Bool} {u d w : Bytes} :
    pg.contBegin sent ≠ .login pg' u d w := by
  intro h
  rw [Pg.contBegin] at h
  repeat' split at h
  all_goals exact absurd h (by simp)

theorem contAuth_eq_login {pg pg' : Pg} {u d w : Bytes}
    (h : pg.contAuth = .login pg' u d w) : pg' = pg := by
  rw [Pg.contAuth] at h
  split at h
  · exact absurd h (by simp)
  · split at h
    · exact absurd h (by simp)
    · injection h with h
      exact h.symm

theorem contAuth_ne_goOn {pg pg' : Pg} : pg.contAuth ≠ .goOn pg' := by
  intro h
  rw [Pg.contAuth] at h
  repeat' split at h
  all_goals exact absurd h (by simp)

theorem keepsIds_contCommand {pg pg' : Pg}
    (h : pg.contCommand = .goOn pg') : KeepsIds pg pg' := by
  rw [Pg.contCommand] at h
  split at h
  · injection h with h
    subst h
    exact ⟨rfl, id, rfl, rfl⟩
  · split at h
    · exact absurd h (by simp)
    · injection h with h
      subst h
      exact .refl _

theorem contCommand_ne_login {pg pg' : Pg} {u d w : Bytes} :
    pg.contCommand ≠ .login pg' u d w := by
  intro h
  rw [Pg.contCommand] at h
  repeat' split at h
  all_goals exact absurd h (by simp)

theorem keepsIds_cont {pg pg' : Pg} {newdata : Bytes} {sent : Bool}
    (h : pg.cont newdata sent = .goOn pg' ∨
      ∃ u d w, pg.cont newdata sent = .login pg' u d w) :
    KeepsIds pg pg' := by
  rw [Pg.cont] at h
  split at h
  · rcases h with h | ⟨u, d, w, h⟩
    · injection h with h
      subst h
      exact .refl _
    · exact absurd h (by simp)
  · split at h
    · rcases h with h | ⟨u, d, w, h⟩
      · exact absurd h (by simp)
      · exact absurd h (by simp)
    · next pg₁ hinit =>
        obtain ⟨h1, h2, h3, h4⟩ := state_initcmd hinit
        rcases h with h | ⟨u, d, w, h⟩
        · injection h with h
          subst h
          exact ⟨h2, fun hs => h1.symm.trans hs, h3, h4⟩
        · exact absurd h (by simp)
    · next pg₁ hinit =>
        obtain ⟨h1, h2, h3, h4⟩ := state_initcmd hinit
        have hkeep : KeepsIds pg pg₁ :=
          ⟨h2, fun hs => h1.symm.trans hs, h3, h4⟩
        refine hkeep.trans ?_
        split at h
        · rcases h with h | ⟨u, d, w, h⟩
          · exact keepsIds_contBegin h
          · exact absurd h contBegin_ne_login
        · rcases h with h | ⟨u, d, w, h⟩
          · exact absurd h contAuth_ne_goOn
          · exact contAuth_eq_login h ▸ .refl _
        · rcases h with h | ⟨u, d, w, h⟩
          · exact keepsIds_contCommand h
          · exact absurd h contCommand_ne_login
        · rcases h with h | ⟨u, d, w, h⟩
          · exact keepsIds_contCommand h
          · exact absurd h contCommand_ne_login
        · rcases h with h | ⟨u, d, w, h⟩
          · injection h with h
            subst h
            exact .refl _
          · exact absurd h (by simp)

/-! ## The invariant -/

structure LoginInv (ta : LoginAgent) : Prop where
  /-- A session has one descriptor, and the descriptor has the session. -/
  pgs : ∀ fd id, ta.pgs fd = some id →
    (ta.objects id).sockfd = fd ∧ id < ta.nextObject
  /-- A session that asked is the one that still has the descriptor. -/
  pending : ∀ o op, ta.pendingOperations o = some op →
    o ≤ ta.operationidcounter ∧ ta.answered o = none ∧
      ∃ id, ta.pgs op.sockfd = some id ∧ ta.asked o = some id
  one : ∀ o o' op op', ta.pendingOperations o = some op →
    ta.pendingOperations o' = some op' → op.sockfd = op'.sockfd → o = o'
  requests : ∀ r ∈ ta.requests, r.operationid ≤ ta.operationidcounter
  answered : ∀ o, ta.answered o ≠ none → o ≤ ta.operationidcounter
  asked : ∀ o id, ta.asked o = some id → o ≤ ta.operationidcounter ∧
    id < ta.nextObject
  waiting : ∀ r ∈ ta.requests, ta.answered r.operationid = none
  own : OwnIds ta

theorem loginInv_new (counter : Int) : LoginInv (.new counter) where
  pgs := fun _ _ h => absurd h (by simp [LoginAgent.new])
  pending := fun _ _ h => absurd h (by simp [LoginAgent.new])
  one := fun _ _ _ _ h => absurd h (by simp [LoginAgent.new])
  requests := fun _ h => absurd h (by simp [LoginAgent.new])
  answered := fun _ h => absurd rfl h
  asked := fun _ _ h => absurd h (by simp [LoginAgent.new])
  waiting := fun _ h => absurd h (by simp [LoginAgent.new])
  own := fun _ h => absurd h (by simp [LoginAgent.new, Pg.new])

theorem LoginInv.answeredGone {ta : LoginAgent} (h : LoginInv ta) :
    AnsweredGone ta := by
  intro o ho
  cases hp : ta.pendingOperations o with
  | none => rfl
  | some op => exact absurd (h.pending o op hp).2.1 ho

/-! ## What each step keeps -/

theorem loginInv_connect {ta : LoginAgent} (h : LoginInv ta) {fd : Int}
    (hfree : ta.pgs fd = none) : LoginInv (ta.connect fd) where
  pgs := by
    intro fd' id hid
    by_cases hfd : fd' = fd
    · subst hfd
      have hid : Function.update ta.pgs fd' (some ta.nextObject) fd' =
        some id := hid
      rw [Function.update_self] at hid
      obtain rfl := Option.some.inj hid
      refine ⟨?_, Nat.lt_succ_self _⟩
      show (Function.update ta.objects ta.nextObject _ ta.nextObject).sockfd = _
      rw [Function.update_self]
      rfl
    · have hid : Function.update ta.pgs fd (some ta.nextObject) fd' =
        some id := hid
      rw [Function.update_of_ne hfd] at hid
      obtain ⟨hsock, hlt⟩ := h.pgs fd' id hid
      refine ⟨?_, Nat.lt_succ_of_lt hlt⟩
      show (Function.update ta.objects ta.nextObject _ id).sockfd = _
      rw [Function.update_of_ne (Nat.ne_of_lt hlt)]
      exact hsock
  pending := by
    intro o op hop
    obtain ⟨hle, hnone, id, hid, hasked⟩ := h.pending o op hop
    refine ⟨hle, hnone, id, ?_, hasked⟩
    have hne : op.sockfd ≠ fd := by
      intro heq
      rw [heq, hfree] at hid
      exact absurd hid (by simp)
    exact (Function.update_of_ne hne _ _).trans hid
  one := h.one
  requests := h.requests
  answered := h.answered
  asked := fun o id hasked =>
    ⟨(h.asked o id hasked).1, Nat.lt_succ_of_lt (h.asked o id hasked).2⟩
  waiting := h.waiting
  own := by
    intro id hstate
    by_cases hid : id = ta.nextObject
    · subst hid
      have hnew : (ta.connect fd).objects ta.nextObject = .new fd :=
        Function.update_self _ _ _
      rw [hnew] at hstate
      exact absurd hstate (by simp [Pg.new])
    · have hold : (ta.connect fd).objects id = ta.objects id :=
        Function.update_of_ne hid _ _
      rw [hold] at hstate ⊢
      exact h.own id hstate

/-- A session changes, and is as it should be. -/
theorem loginInv_setObject {ta : LoginAgent} (h : LoginInv ta) {id : Nat}
    {pg : Pg} (hsock : pg.sockfd = (ta.objects id).sockfd)
    (hown : pg.state = .established →
      ∃ o reply, ta.asked o = some id ∧ ta.answered o = some reply ∧
        reply.ok = true ∧ pg.userid = reply.userid ∧
        pg.domainid = reply.domainid) :
    LoginInv (ta.setObject id pg) where
  pgs := by
    intro fd id' hid
    obtain ⟨hfd, hlt⟩ := h.pgs fd id' hid
    refine ⟨?_, hlt⟩
    show (Function.update ta.objects id pg id').sockfd = fd
    by_cases heq : id' = id
    · subst heq
      rw [Function.update_self, hsock, hfd]
    · rw [Function.update_of_ne heq, hfd]
  pending := h.pending
  one := h.one
  requests := h.requests
  answered := h.answered
  asked := h.asked
  waiting := h.waiting
  own := by
    intro id' hstate
    by_cases heq : id' = id
    · subst heq
      have hnew : (ta.setObject id' pg).objects id' = pg :=
        Function.update_self _ _ _
      rw [hnew] at hstate ⊢
      exact hown hstate
    · have hold : (ta.setObject id pg).objects id' = ta.objects id' :=
        Function.update_of_ne heq _ _
      rw [hold] at hstate ⊢
      exact h.own id' hstate

theorem KeepsIds.loginInv {ta : LoginAgent} (h : LoginInv ta) {id : Nat}
    {pg : Pg} (hkeep : KeepsIds (ta.objects id) pg) :
    LoginInv (ta.setObject id pg) := by
  refine loginInv_setObject h hkeep.sockfd fun hstate => ?_
  rw [hkeep.userid, hkeep.domainid]
  exact h.own id (hkeep.established hstate)

/-- A session is closed that no login is pending for. -/
theorem loginInv_closesocket {ta : LoginAgent} (h : LoginInv ta) {fd : Int}
    {id : Nat} (hid : ta.pgs fd = some id)
    (hfree : ∀ o op, ta.pendingOperations o = some op → op.sockfd ≠ fd) :
    LoginInv (ta.closesocket id) := by
  obtain ⟨hsock, _⟩ := h.pgs fd id hid
  have hpgs : (ta.closesocket id).pgs = Function.update ta.pgs fd none := by
    rw [← hsock]
    rfl
  constructor
  case pgs =>
    intro fd' id' hid'
    rw [hpgs] at hid'
    by_cases hfd : fd' = fd
    · rw [hfd, Function.update_self] at hid'
      exact absurd hid' (by simp)
    · rw [Function.update_of_ne hfd] at hid'
      obtain ⟨hsock', hlt⟩ := h.pgs fd' id' hid'
      have hne : id' ≠ id := by
        intro heq
        subst heq
        exact hfd (hsock'.symm.trans hsock)
      refine ⟨?_, hlt⟩
      show (Function.update ta.objects id _ id').sockfd = fd'
      rw [Function.update_of_ne hne]
      exact hsock'
  case pending =>
    intro o op hop
    obtain ⟨hle, hnone, id', hid', hasked⟩ := h.pending o op hop
    refine ⟨hle, hnone, id', ?_, hasked⟩
    rw [hpgs, Function.update_of_ne (hfree o op hop)]
    exact hid'
  case one => exact h.one
  case requests => exact h.requests
  case answered => exact h.answered
  case asked => exact h.asked
  case waiting => exact h.waiting
  case own =>
    intro id' hstate
    by_cases heq : id' = id
    · subst heq
      have hnew : ((ta.closesocket id').objects id').state = .exiting := by
        show (Function.update ta.objects id' _ id').state = _
        rw [Function.update_self]
      rw [hnew] at hstate
      exact absurd hstate (by simp)
    · have hold : (ta.closesocket id).objects id' = ta.objects id' :=
        Function.update_of_ne heq _ _
      rw [hold] at hstate ⊢
      exact h.own id' hstate

/-- A session asks for a login that had none pending. -/
theorem loginInv_ask {ta : LoginAgent} (h : LoginInv ta) {fd : Int} {id : Nat}
    (hid : ta.pgs fd = some id)
    (hfree : ∀ o op, ta.pendingOperations o = some op → op.sockfd ≠ fd)
    (u d w : Bytes) : LoginInv (ta.ask id u d w) := by
  obtain ⟨hsock, hlt⟩ := h.pgs fd id hid
  have hcounter : (ta.ask id u d w).operationidcounter =
    ta.operationidcounter + 1 := rfl
  have hpending : ∀ o op,
      (ta.ask id u d w).pendingOperations o = some op →
      o = ta.operationidcounter + 1 ∧ op.sockfd = fd ∨
        o ≠ ta.operationidcounter + 1 ∧ ta.pendingOperations o = some op := by
    intro o op hop
    have hop : Function.update ta.pendingOperations (ta.operationidcounter + 1)
        (some { sockfd := (ta.objects id).sockfd }) o = some op := hop
    by_cases ho : o = ta.operationidcounter + 1
    · subst ho
      rw [Function.update_self] at hop
      exact .inl ⟨rfl, Option.some.inj hop ▸ hsock⟩
    · rw [Function.update_of_ne ho] at hop
      exact .inr ⟨ho, hop⟩
  have hasked : ∀ o, o ≠ ta.operationidcounter + 1 →
      (ta.ask id u d w).asked o = ta.asked o :=
    fun o ho => Function.update_of_ne ho _ _
  have hnew : (ta.ask id u d w).asked (ta.operationidcounter + 1) = some id :=
    Function.update_self _ _ _
  have hunanswered : ta.answered (ta.operationidcounter + 1) = none := by
    by_contra hne
    have := h.answered _ hne
    omega
  constructor
  case pgs => exact h.pgs
  case pending =>
    intro o op hop
    rw [hcounter]
    rcases hpending o op hop with ⟨rfl, hfd⟩ | ⟨ho, hop⟩
    · exact ⟨le_refl _, hunanswered, id, by rw [hfd]; exact hid, hnew⟩
    · obtain ⟨hle, hnone, id', hid', hasked'⟩ := h.pending o op hop
      exact ⟨by omega, hnone, id', hid', (hasked o ho).trans hasked'⟩
  case one =>
    intro o o' op op' hop hop' heq
    rcases hpending o op hop with ⟨rfl, hfd⟩ | ⟨ho, hop⟩
    · rcases hpending o' op' hop' with ⟨rfl, _⟩ | ⟨_, hop'⟩
      · rfl
      · exact absurd (heq.symm.trans hfd) (hfree o' op' hop')
    · rcases hpending o' op' hop' with ⟨_, hfd⟩ | ⟨_, hop'⟩
      · exact absurd (heq.trans hfd) (hfree o op hop)
      · exact h.one o o' op op' hop hop' heq
  case requests =>
    intro r hr
    rw [hcounter]
    rcases List.mem_append.mp hr with hr | hr
    · have := h.requests r hr
      omega
    · rw [List.mem_singleton.mp hr]
  case answered =>
    intro o ho
    have := h.answered o ho
    rw [hcounter]
    omega
  case asked =>
    intro o id' hid'
    rw [hcounter]
    by_cases ho : o = ta.operationidcounter + 1
    · rw [ho, hnew] at hid'
      exact ⟨by omega, Option.some.inj hid' ▸ hlt⟩
    · rw [hasked o ho] at hid'
      obtain ⟨hle, hlt'⟩ := h.asked o id' hid'
      exact ⟨by omega, hlt'⟩
  case waiting =>
    intro r hr
    rcases List.mem_append.mp hr with hr | hr
    · exact h.waiting r hr
    · rw [List.mem_singleton.mp hr]
      exact hunanswered
  case own =>
    intro id' hstate
    obtain ⟨o, reply, hasked', hanswered, hok⟩ := h.own id' hstate
    refine ⟨o, reply, ?_, hanswered, hok⟩
    have hle := (h.asked o id' hasked').1
    rw [hasked o (by omega)]
    exact hasked'

/-- A reply takes its request off the network and its operation out of
`pendingOperations`. -/
theorem loginInv_answered {ta : LoginAgent} (h : LoginInv ta)
    {r : LoginRequest} (hr : r ∈ ta.requests) (reply : UserReply) :
    LoginInv ((ta.answer r.operationid reply).erase r.operationid) := by
  generalize hs : (ta.answer r.operationid reply).erase r.operationid = ta'
  have hpending : ∀ o op, ta'.pendingOperations o = some op →
      o ≠ r.operationid ∧ ta.pendingOperations o = some op := by
    intro o op hop
    subst hs
    have hop : Function.update ta.pendingOperations r.operationid none o =
      some op := hop
    by_cases ho : o = r.operationid
    · rw [ho, Function.update_self] at hop
      exact absurd hop (by simp)
    · rw [Function.update_of_ne ho] at hop
      exact ⟨ho, hop⟩
  have hother : ∀ o, o ≠ r.operationid → ta'.answered o = ta.answered o := by
    intro o ho
    rw [← hs]
    exact Function.update_of_ne ho _ _
  have hrequests : ∀ q ∈ ta'.requests,
      q.operationid ≠ r.operationid ∧ q ∈ ta.requests := by
    intro q hq
    rw [← hs] at hq
    obtain ⟨hmem, hne⟩ := List.mem_filter.mp hq
    exact ⟨by simpa using hne, hmem⟩
  constructor
  case pgs => exact hs ▸ h.pgs
  case pending =>
    intro o op hop
    obtain ⟨ho, hop⟩ := hpending o op hop
    rw [hother o ho, ← hs]
    exact h.pending o op hop
  case one =>
    intro o o' op op' hop hop'
    exact h.one o o' op op' (hpending o op hop).2 (hpending o' op' hop').2
  case requests =>
    intro q hq
    have hle := h.requests q (hrequests q hq).2
    exact hs ▸ hle
  case answered =>
    intro o hne
    by_cases ho : o = r.operationid
    · have hle := h.requests r hr
      rw [ho]
      exact hs ▸ hle
    · rw [hother o ho] at hne
      have hle := h.answered o hne
      exact hs ▸ hle
  case asked => exact hs ▸ h.asked
  case waiting =>
    intro q hq
    obtain ⟨hne, hmem⟩ := hrequests q hq
    rw [hother _ hne]
    exact h.waiting q hmem
  case own =>
    intro id hstate
    have hobjects : ta'.objects = ta.objects := hs ▸ rfl
    have hasked : ta'.asked = ta.asked := hs ▸ rfl
    rw [hobjects] at hstate
    obtain ⟨o, reply', hasked', hanswered, hrest⟩ := h.own id hstate
    rw [hobjects, hasked]
    refine ⟨o, reply', hasked', ?_, hrest⟩
    have hne : o ≠ r.operationid := by
      intro ho
      rw [ho, h.waiting r hr] at hanswered
      exact absurd hanswered (by simp)
    rw [hother o hne]
    exact hanswered

/-- The session that a reply finds is the one that asked, and it gets the ids
that it asked for. -/
theorem loginInv_handleOperation {ta : LoginAgent} (h : LoginInv ta)
    {r : LoginRequest} (hr : r ∈ ta.requests) {op : Operation}
    (hop : ta.pendingOperations r.operationid = some op) (reply : UserReply)
    (sent : Bool) :
    LoginInv ((ta.answer r.operationid reply).handleOperation r.operationid op
      reply sent) := by
  obtain ⟨_, _, id, hid, hasked⟩ := h.pending _ op hop
  have hbase := loginInv_answered h hr reply
  have hanswered : ((ta.answer r.operationid reply).erase
      r.operationid).answered r.operationid = some reply :=
    Function.update_self _ _ _
  have hfree : ∀ o op',
      ((ta.answer r.operationid reply).erase
        r.operationid).pendingOperations o = some op' →
      op'.sockfd ≠ op.sockfd := by
    intro o op' hop' heq
    have hop' : Function.update ta.pendingOperations r.operationid none o =
      some op' := hop'
    by_cases ho : o = r.operationid
    · rw [ho, Function.update_self] at hop'
      exact absurd hop' (by simp)
    · rw [Function.update_of_ne ho] at hop'
      exact ho (h.one o r.operationid op' op hop' hop heq)
  generalize hlogin : (ta.objects id).continueLogin reply sent = login
  obtain ⟨pg, isopen⟩ := login
  have hset : LoginInv (((ta.answer r.operationid reply).erase
      r.operationid).setObject id pg) := by
    rw [Pg.continueLogin] at hlogin
    split at hlogin
    · next hok =>
        have hpg : pg.sockfd = (ta.objects id).sockfd ∧
            pg.userid = reply.userid ∧ pg.domainid = reply.domainid := by
          dsimp only at hlogin
          split at hlogin
          · obtain ⟨rfl, _⟩ := Prod.mk.inj hlogin
            exact ⟨rfl, rfl, rfl⟩
          · obtain ⟨rfl, _⟩ := Prod.mk.inj hlogin
            exact ⟨rfl, rfl, rfl⟩
        exact loginInv_setObject hbase hpg.1 fun _ =>
          ⟨r.operationid, reply, hasked, hanswered, hok, hpg.2⟩
    · obtain ⟨rfl, _⟩ := Prod.mk.inj hlogin
      exact KeepsIds.loginInv hbase (.refl _)
  have hfinal : (ta.answer r.operationid reply).handleOperation r.operationid
      op reply sent =
      if isopen then ((ta.answer r.operationid reply).erase
        r.operationid).setObject id pg
      else (((ta.answer r.operationid reply).erase
        r.operationid).setObject id pg).closesocket id := by
    have hpgs : (ta.answer r.operationid reply).pgs op.sockfd = some id := hid
    have hobjects : (ta.answer r.operationid reply).objects id =
      ta.objects id := rfl
    rw [LoginAgent.handleOperation, hpgs]
    dsimp only
    rw [hobjects, hlogin]
    cases isopen <;> rfl
  rw [hfinal]
  split
  · exact hset
  · exact loginInv_closesocket hset hid hfree

theorem loginInv_step {ta ta' : LoginAgent} {event : LoginEvent}
    (h : LoginInv ta) (hs : ta.step event = some ta')
    (hok : WaitsForLogin ta event) : LoginInv ta' := by
  cases event with
  | socketconnected fd =>
      rw [LoginAgent.step] at hs
      split at hs
      · next hfree =>
          obtain rfl := Option.some.inj hs
          exact loginInv_connect h hfree
      · obtain rfl := Option.some.inj hs
        exact h
  | hangup fd =>
      rw [LoginAgent.step] at hs
      split at hs
      · obtain rfl := Option.some.inj hs
        exact h
      · next hid =>
          obtain rfl := Option.some.inj hs
          exact loginInv_closesocket h hid hok
  | socket fd newdata sent =>
      rw [LoginAgent.step] at hs
      split at hs
      · obtain rfl := Option.some.inj hs
        exact h
      · next id hid =>
          obtain rfl := Option.some.inj hs
          rw [LoginAgent.contSocket]
          rcases hok with hempty | hfree
          · have hcont : (ta.objects id).cont newdata sent =
                .goOn (ta.objects id) := by
              rw [Pg.cont, if_pos (.inr hempty)]
            rw [hcont]
            exact KeepsIds.loginInv h (.refl _)
          · split
            · exact loginInv_closesocket h hid hfree
            · next hcont =>
                exact KeepsIds.loginInv h (keepsIds_cont (.inl hcont))
            · next pg u d w hcont =>
                have hkeep := keepsIds_cont (.inr ⟨u, d, w, hcont⟩)
                exact loginInv_ask (KeepsIds.loginInv h hkeep) hid hfree u d w
  | operation operationid reply sent =>
      rw [LoginAgent.step] at hs
      split at hs
      · next hany =>
          obtain ⟨r, hr, heq⟩ := List.any_eq_true.mp hany
          obtain rfl : r.operationid = operationid := by simpa using heq
          have hpending : (ta.answer r.operationid reply).pendingOperations =
            ta.pendingOperations := rfl
          dsimp only at hs
          rw [hpending] at hs
          split at hs
          · next hnone =>
              obtain rfl := Option.some.inj hs
              have hbase := loginInv_answered h hr reply
              rw [LoginAgent.erase, hpending, ← hnone,
                Function.update_eq_self] at hbase
              exact hbase
          · next op hop =>
              obtain rfl := Option.some.inj hs
              exact loginInv_handleOperation h hr hop reply sent
      · obtain rfl := Option.some.inj hs
        exact h

/-! ## The runs -/

/-- In a run that reads nothing from a socket whose login is not answered, and
in which no such socket fails, a login reply reaches only the session that
asked, and the operation is gone after it. -/
theorem ownIds_of_waitsForLogin (counter : Int) {events : List LoginEvent}
    (hok : AllSteps LoginAgent.step WaitsForLogin (.new counter) events) :
    AllStates LoginAgent.step (fun ta => OwnIds ta ∧ AnsweredGone ta)
      (.new counter) events := by
  have hinv := hok.allStates
    (fun _ _ _ hok h hs => loginInv_step h hs hok) (loginInv_new counter)
  exact hinv.imp fun _ h => ⟨h.own, h.answeredGone⟩

/-! ## Two clients -/

/-- The startup packet of user `a` of domain `a`. -/
def startupPacket : Bytes :=
  [0, 0, 0, 16, 0, 3, 0, 0, 117, 115, 101, 114, 0, 97, 0, 0]

/-- The password message with the password `p`. -/
def passwordPacket : Bytes := [112, 0, 0, 0, 6, 112, 0]

/-- A client logs in. -/
def loginOnce : List LoginEvent :=
  [.socketconnected 5, .socket 5 startupPacket true,
    .socket 5 passwordPacket true, .operation 1 ⟨true, 3, 7⟩ true]

theorem free_of_none {ta : LoginAgent} {fd : Int}
    (h : ∀ o, ta.pendingOperations o = none) (o : Int) (op : Operation)
    (hop : ta.pendingOperations o = some op) : op.sockfd ≠ fd := by
  rw [h o] at hop
  exact absurd hop (by simp)

theorem ownIds_of_waitsForLogin_loginOnce :
    AllStates LoginAgent.step (fun ta => OwnIds ta ∧ AnsweredGone ta)
      (.new 0) loginOnce := by
  refine ownIds_of_waitsForLogin 0 ?_
  refine .cons rfl trivial ?_
  refine .cons rfl (.inr (free_of_none fun _ => rfl)) ?_
  refine .cons rfl (.inr (free_of_none fun _ => rfl)) ?_
  exact .cons rfl trivial trivial

/-- The client that asked is gone when the reply comes, and another has its
descriptor. -/
def reusedDescriptor : List LoginEvent :=
  [.socketconnected 5, .socket 5 startupPacket true,
    .socket 5 passwordPacket true, .hangup 5, .socketconnected 5,
    .operation 1 ⟨true, 3, 7⟩ true]

/-- The client that asked is gone, and no other has come. -/
def goneDescriptor : List LoginEvent :=
  [.socketconnected 5, .socket 5 startupPacket true,
    .socket 5 passwordPacket true, .hangup 5, .operation 1 ⟨true, 3, 7⟩ true]

/-- The second client is logged in as user 7 of domain 3 without a password.
Without a second client, the operation stays. -/
theorem reusedDescriptor_logs_in :
    (∃ ta, run LoginAgent.step (.new 0) reusedDescriptor = some ta ∧
      ta.pgs 5 = some 1 ∧ (ta.objects 1).state = .established ∧
      (ta.objects 1).userid = 7 ∧ (ta.objects 1).domainid = 3 ∧
      ¬ OwnIds ta) ∧
    ∃ ta, run LoginAgent.step (.new 0) goneDescriptor = some ta ∧
      ¬ AnsweredGone ta := by
  constructor
  · refine ⟨_, rfl, rfl, rfl, rfl, rfl, fun hown => ?_⟩
    obtain ⟨o, _, hasked, _⟩ := hown 1 rfl
    have hasked : Function.update (fun _ => none) (0 + 1 : Int)
        (some 0) o = some 1 := hasked
    by_cases ho : o = 0 + 1
    · rw [ho, Function.update_self] at hasked
      exact absurd hasked (by simp)
    · rw [Function.update_of_ne ho] at hasked
      exact absurd hasked (by simp)
  · refine ⟨_, rfl, fun hgone => ?_⟩
    exact absurd (hgone 1 (Option.some_ne_none _)) (Option.some_ne_none _)

end Infinisql.Proofs
