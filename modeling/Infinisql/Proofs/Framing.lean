import Infinisql.Spec.PgMessages

/-!
# What a session takes does not depend on the cuts, if each read ends with a
message at the latest

What a session keeps of a message that it has not all of is `holding`, and a
read adds to it. It is complete when all bytes of the message are there, and
bogus as soon as there is one more, so that a session does not survive a read
with the bytes of two messages.

The branch that a complete command goes to has to leave `size` and `inbuf` as
a new command needs them. That of the SSL request forgets the second: its code
stands where the length of the startup message is looked for, and the session
waits for eighty million bytes. The branches of the commands that are not
known forget both, and so does a login that is refused, so that the next read
is bogus. All other branches do it right. These four facts are the theorem,
read by read.
-/

namespace Infinisql.Proofs

open Infinisql.Lib Infinisql.Ref Infinisql.Spec

namespace Framing

variable {pg : Pg} {m : ClientMessage} {ms : List ClientMessage}
variable {buf more rest : Bytes}
variable {a : Arrival} {t : List Taken} {phase phase' : Phase}

/-! ## Numbers and strings -/

theorem length_int32 (n : Nat) : (int32 n).length = 4 := by
  rw [int32, List.length_reverse, length_leBytes]

theorem be32_int32 {n : Nat} (h : n < 2 ^ 32) (before rest : Bytes) :
    Pg.be32 (before ++ (int32 n ++ rest)) before.length = n := by
  have hfold : ∀ l : Bytes,
      l.foldr (fun b k => 256 * k + b.toNat) 0 = ofLeBytes l := by
    intro l
    induction l with
    | nil => rfl
    | cons b l ih => rw [List.foldr_cons, ih, ofLeBytes, Nat.add_comm]
  rw [Pg.be32, List.drop_left' rfl, List.take_left' (length_int32 n), int32,
    List.foldl_reverse, hfold, ofLeBytes_leBytes]
  exact Nat.mod_eq_of_lt h

theorem getString_cstring {s : Bytes} (h : 0 ∉ s) (before rest : Bytes) :
    Pg.getString (before ++ (cstring s ++ rest)) before.length =
      some (s, before.length + s.length + 1) := by
  have hwhile : (cstring s ++ rest).takeWhile (· ≠ 0) = s := by
    rw [cstring, List.append_assoc,
      List.takeWhile_append_of_pos fun b hb => by
        simpa using fun heq : b = 0 => h (heq ▸ hb)]
    simp
  have hlen : s.length < (cstring s ++ rest).length := by
    rw [cstring, List.length_append, List.length_append,
      List.length_singleton]
    omega
  rw [Pg.getString, List.drop_left' rfl, hwhile, if_pos hlen]

/-! ## Startup parameters -/

theorem length_le_params (ps : List (Bytes × Bytes)) :
    ps.length ≤ (ClientMessage.params ps).length := by
  induction ps with
  | nil => exact Nat.zero_le _
  | cons p ps ih =>
      rw [ClientMessage.params, List.flatMap_cons, List.length_append,
        List.length_append, cstring, List.length_append,
        List.length_singleton]
      rw [ClientMessage.params] at ih
      show ps.length + 1 ≤ _
      omega

theorem getStartupArgs_params {ps : List (Bytes × Bytes)}
    (h : ∀ p ∈ ps, p.1 ≠ [] ∧ 0 ∉ p.1 ∧ 0 ∉ p.2) (before rest : Bytes)
    {rounds : Nat} (hrounds : ps.length < rounds)
    (args : Bytes → Option Bytes) :
    Pg.getStartupArgs (before ++ (ClientMessage.params ps ++ 0 :: rest)) rounds
        before.length args =
      some (setParams args ps) := by
  induction ps generalizing before rounds args with
  | nil =>
      obtain ⟨rounds, rfl⟩ := Nat.exists_eq_succ_of_ne_zero
        (Nat.ne_of_gt (Nat.lt_of_le_of_lt (Nat.zero_le _) hrounds))
      rw [Pg.getStartupArgs, if_pos]
      · rfl
      · simp [ClientMessage.params]
  | cons p ps ih =>
      obtain ⟨rounds, rfl⟩ := Nat.exists_eq_succ_of_ne_zero
        (Nat.ne_of_gt (Nat.lt_of_le_of_lt (Nat.zero_le _) hrounds))
      obtain ⟨hname, hfst, hsnd⟩ := h p List.mem_cons_self
      have hsplit : before ++ (ClientMessage.params (p :: ps) ++ 0 :: rest) =
          before ++ (cstring p.1 ++
            (cstring p.2 ++ (ClientMessage.params ps ++ 0 :: rest))) := by
        rw [ClientMessage.params, List.flatMap_cons, List.append_assoc,
          List.append_assoc, ClientMessage.params]
      have hfirst : (before ++ (cstring p.1 ++
          (cstring p.2 ++ (ClientMessage.params ps ++ 0 :: rest)))).getD
            before.length 0 ≠ 0 := by
        cases hcase : p.1 with
        | nil => exact absurd hcase hname
        | cons b bs =>
            have hb : b ≠ 0 := fun heq => hfst (by
              rw [hcase, heq]
              exact List.mem_cons_self)
            simpa [cstring] using hb
      have hsecond : before ++ (cstring p.1 ++
          (cstring p.2 ++ (ClientMessage.params ps ++ 0 :: rest))) =
          (before ++ cstring p.1) ++
            (cstring p.2 ++ (ClientMessage.params ps ++ 0 :: rest)) := by
        rw [List.append_assoc]
      have hpos : before.length + p.1.length + 1 =
          (before ++ cstring p.1).length := by
        rw [cstring, List.length_append, List.length_append,
          List.length_singleton]
        omega
      have hthird : (before ++ cstring p.1) ++
          (cstring p.2 ++ (ClientMessage.params ps ++ 0 :: rest)) =
          (before ++ cstring p.1 ++ cstring p.2) ++
            (ClientMessage.params ps ++ 0 :: rest) := by
        rw [List.append_assoc _ (cstring p.2)]
      have hpos' : (before ++ cstring p.1).length + p.2.length + 1 =
          (before ++ cstring p.1 ++ cstring p.2).length := by
        simp only [cstring, List.length_append, List.length_singleton]
        omega
      rw [hsplit, Pg.getStartupArgs, if_neg hfirst, getString_cstring hfst]
      dsimp only
      rw [hsecond, hpos, getString_cstring hsnd]
      dsimp only
      rw [hthird, hpos', ih (fun q hq => h q (List.mem_cons_of_mem _ hq)) _
        (Nat.lt_of_succ_lt_succ hrounds)]
      rfl

theorem setParams_isSome {ps : List (Bytes × Bytes)} {name : Bytes}
    {args : Bytes → Option Bytes}
    (h : (args name).isSome ∨ ∃ p ∈ ps, p.1 = name) :
    (setParams args ps name).isSome := by
  induction ps generalizing args with
  | nil =>
      rcases h with h | ⟨p, hp, _⟩
      · exact h
      · exact absurd hp List.not_mem_nil
  | cons p ps ih =>
      refine ih ?_
      dsimp only
      by_cases hname : p.1 = name
      · subst hname
        rw [Function.update_self]
        exact .inl rfl
      · rcases h with h | ⟨q, hq, hqname⟩
        · rw [Function.update_of_ne (Ne.symm hname)]
          exact .inl h
        · rcases List.mem_cons.mp hq with rfl | hq
          · exact absurd hqname hname
          · exact .inr ⟨q, hq, hqname⟩

/-! ## What is held of a message -/

/-- A session that has read this of the message. -/
def holding (pg : Pg) (m : ClientMessage) (buf : Bytes) : Pg :=
  if buf.length < m.header.length then { pg with size := 0, inbuf := buf }
  else
    { pg with
      size := m.body.length + 4
      inbuf := buf.drop m.header.length
      pgcmdtype := m.type.getD pg.pgcmdtype }

/-- A session that has read all of it. -/
def holdingAll (pg : Pg) (m : ClientMessage) : Pg :=
  { pg with
    size := m.body.length + 4
    inbuf := m.body
    pgcmdtype := m.type.getD pg.pgcmdtype }

theorem holding_bytes (pg : Pg) (m : ClientMessage) :
    holding pg m m.bytes = holdingAll pg m := by
  have hle : ¬ m.bytes.length < m.header.length := by
    rw [ClientMessage.bytes, List.length_append]
    omega
  rw [holding, if_neg hle, holdingAll, ClientMessage.bytes, List.drop_left' rfl]

theorem length_header (m : ClientMessage) :
    m.header.length = m.type.toList.length + 4 := by
  rw [ClientMessage.header, List.length_append, length_int32]

theorem header_pos (m : ClientMessage) : 0 < m.header.length := by
  rw [length_header]
  omega

theorem holding_nil (hsize : pg.size = 0) (hinbuf : pg.inbuf = [])
    (m : ClientMessage) : holding pg m [] = pg := by
  have hlt : ([] : Bytes).length < m.header.length := header_pos m
  cases pg
  subst hsize hinbuf
  exact if_pos hlt

theorem holding_state (pg : Pg) (m : ClientMessage) (buf : Bytes) :
    (holding pg m buf).state = pg.state := by
  rw [holding]
  split
  · rfl
  · rfl

/-- What has been read of a stream begins with the header of its first
message, if it is that long. -/
theorem header_append (hstream : buf ++ more = m.bytes ++ rest)
    (hle : m.header.length ≤ buf.length) :
    ∃ tail, buf = m.header ++ tail := by
  have hbuf : buf <+: m.header ++ (m.body ++ rest) :=
    ⟨more, by rw [hstream, ClientMessage.bytes, List.append_assoc]⟩
  obtain ⟨tail, htail⟩ := List.prefix_of_prefix_length_le
    (List.prefix_append m.header (m.body ++ rest)) hbuf hle
  exact ⟨tail, htail.symm⟩

/-- A read while the message is not complete. -/
theorem initcmd_holding (hm : m.WellFormed)
    (hfit : pg.state = .begin ↔ m.type = none)
    (hstream : buf ++ a.newdata ++ more = m.bytes ++ rest) :
    (holding pg m buf).initcmd a.newdata =
      if (buf ++ a.newdata).length < m.header.length then
        (.incomplete, holding pg m (buf ++ a.newdata))
      else (holding pg m (buf ++ a.newdata)).received := by
  have hlen : (buf ++ a.newdata).length = buf.length + a.newdata.length :=
    List.length_append
  by_cases hbuf : buf.length < m.header.length
  · have hleast : (if (holding pg m buf).state = .begin then 4 else 5) =
        m.header.length := by
      rw [holding_state, length_header]
      by_cases hbegin : pg.state = .begin
      · rw [if_pos hbegin, hfit.mp hbegin]
        rfl
      · rw [if_neg hbegin]
        cases htype : m.type with
        | none => exact absurd (hfit.mpr htype) hbegin
        | some type => rfl
    have hheld : holding pg m buf = { pg with size := 0, inbuf := buf } :=
      if_pos hbuf
    rw [Pg.initcmd, hleast, hheld]
    dsimp only
    rw [if_pos rfl]
    by_cases hshort : (buf ++ a.newdata).length < m.header.length
    · rw [if_pos hshort, if_pos hshort, holding, if_pos hshort]
    · rw [if_neg hshort, if_neg hshort, holding, if_neg hshort]
      obtain ⟨tail, htail⟩ := header_append hstream (Nat.le_of_not_lt hshort)
      rw [htail, List.drop_left' rfl]
      by_cases hbegin : pg.state = .begin
      · have htype := hfit.mp hbegin
        have hheader : m.header = int32 (m.body.length + 4) := by
          rw [ClientMessage.header, htype]
          rfl
        have hsize := be32_int32 hm.1 [] tail
        rw [List.nil_append] at hsize
        rw [if_pos hbegin, hheader, htype]
        rw [show Pg.be32 (int32 (m.body.length + 4) ++ tail) 0 = _ from hsize]
        rw [List.drop_left' (length_int32 _)]
        rfl
      · cases htype : m.type with
        | none => exact absurd (hfit.mpr htype) hbegin
        | some type =>
            have hheader : m.header =
                type :: int32 (m.body.length + 4) := by
              rw [ClientMessage.header, htype]
              rfl
            have hsize : Pg.be32 (m.header ++ tail) 1 = m.body.length + 4 := by
              rw [hheader]
              exact be32_int32 hm.1 [type] tail
            have hdrop : (m.header ++ tail).drop 5 = tail :=
              List.drop_left' (by rw [length_header, htype]; rfl)
            rw [if_neg hbegin, hsize, hdrop, hheader]
            rfl
  · have hlong : ¬ (buf ++ a.newdata).length < m.header.length := by omega
    have hheld : holding pg m buf =
        { pg with
          size := m.body.length + 4
          inbuf := buf.drop m.header.length
          pgcmdtype := m.type.getD pg.pgcmdtype } := if_neg hbuf
    rw [if_neg hlong, Pg.initcmd, hheld, holding, if_neg hlong]
    dsimp only
    rw [if_neg (Nat.succ_ne_zero _),
      List.drop_append_of_le_length (Nat.le_of_not_lt hbuf)]

theorem length_bytes (m : ClientMessage) :
    m.bytes.length = m.header.length + m.body.length := by
  rw [ClientMessage.bytes, List.length_append]

/-- Not all of the message has been read. -/
theorem received_incomplete (hle : m.header.length ≤ buf.length)
    (hlt : buf.length < m.bytes.length) :
    (holding pg m buf).received = (.incomplete, holding pg m buf) := by
  rw [length_bytes] at hlt
  have hdrop : (buf.drop m.header.length).length =
      buf.length - m.header.length := List.length_drop
  rw [holding, if_neg (Nat.not_lt.mpr hle), Pg.received]
  dsimp only
  rw [hdrop, if_neg (by omega), if_pos (by omega)]

/-- More than the message has been read. -/
theorem received_bogus (hlt : m.bytes.length < buf.length) :
    (holding pg m buf).received = (.bogus, holding pg m buf) := by
  rw [length_bytes] at hlt
  have hdrop : (buf.drop m.header.length).length =
      buf.length - m.header.length := List.length_drop
  rw [holding, if_neg (by omega), Pg.received]
  dsimp only
  rw [hdrop, if_neg (by omega), if_neg (by omega)]

theorem received_complete (pg : Pg) (m : ClientMessage) :
    (holdingAll pg m).received = (.complete, holdingAll pg m) := by
  rw [Pg.received, holdingAll]
  dsimp only
  rw [if_pos rfl]

theorem initcmd_inside (hm : m.WellFormed)
    (hfit : pg.state = .begin ↔ m.type = none)
    (hstream : buf ++ a.newdata ++ more = m.bytes ++ rest)
    (hlt : (buf ++ a.newdata).length < m.bytes.length) :
    (holding pg m buf).initcmd a.newdata =
      (.incomplete, holding pg m (buf ++ a.newdata)) := by
  rw [initcmd_holding hm hfit hstream]
  split
  · rfl
  · next hle => exact received_incomplete (Nat.le_of_not_lt hle) hlt

theorem initcmd_ends (hm : m.WellFormed)
    (hfit : pg.state = .begin ↔ m.type = none)
    (heq : buf ++ a.newdata = m.bytes) :
    (holding pg m buf).initcmd a.newdata =
      (.complete, holdingAll pg m) := by
  have hstream : buf ++ a.newdata ++ [] = m.bytes ++ [] := by rw [heq]
  have hle : ¬ m.bytes.length < m.header.length := by
    rw [length_bytes]
    omega
  rw [initcmd_holding hm hfit hstream, heq, if_neg hle, holding_bytes,
    received_complete]

theorem initcmd_beyond (hm : m.WellFormed)
    (hfit : pg.state = .begin ↔ m.type = none)
    (hstream : buf ++ a.newdata ++ more = m.bytes ++ rest)
    (hlt : m.bytes.length < (buf ++ a.newdata).length) :
    (holding pg m buf).initcmd a.newdata =
      (.bogus, holding pg m (buf ++ a.newdata)) := by
  have hle : ¬ (buf ++ a.newdata).length < m.header.length := by
    rw [length_bytes] at hlt
    omega
  rw [initcmd_holding hm hfit hstream, if_neg hle, received_bogus hlt]

/-! ## A read -/

/-- What `cont` does with what `initcmd` returns. -/
def handles (pg : Pg) : Pg.Initcmd → Pg.Cont
  | .bogus => .closesocket
  | .incomplete => .goOn pg
  | .complete =>
      match pg.state with
      | .begin => pg.contBegin true
      | .auth => pg.contAuth
      | .established | .aborted => pg.contCommand
      | .exiting => .goOn pg

/-- What it takes then. -/
def takes (pg : Pg) : Pg.Initcmd → Option Taken
  | .bogus | .incomplete => none
  | .complete =>
      match pg.state with
      | .begin => pg.takenBegin
      | .auth => pg.takenAuth
      | .established | .aborted => pg.takenCommand
      | .exiting => none

theorem cont_of_initcmd {pg' : Pg} {r : Pg.Initcmd}
    (hstate : pg.state ≠ .exiting) (hdata : a.newdata ≠ [])
    (hinit : pg.initcmd a.newdata = (r, pg')) :
    pg.cont a.newdata true = handles pg' r ∧
      pg.taken a.newdata = takes pg' r := by
  have hguard : ¬ (pg.state = .exiting ∨ a.newdata.length = 0) := by
    rintro (h | h)
    · exact hstate h
    · exact hdata (List.length_eq_zero_iff.mp h)
  rw [Pg.cont, if_neg hguard, Pg.taken, if_neg hguard, hinit]
  cases r with
  | bogus => exact ⟨rfl, rfl⟩
  | incomplete => exact ⟨rfl, rfl⟩
  | complete => exact ⟨rfl, rfl⟩

theorem complete_begin (h : pg.state = .begin) :
    handles pg .complete = pg.contBegin true ∧
      takes pg .complete = pg.takenBegin := by
  rw [handles, takes, h]
  exact ⟨rfl, rfl⟩

theorem complete_auth (h : pg.state = .auth) :
    handles pg .complete = pg.contAuth ∧
      takes pg .complete = pg.takenAuth := by
  rw [handles, takes, h]
  exact ⟨rfl, rfl⟩

theorem complete_command (h : pg.state = .established ∨ pg.state = .aborted) :
    handles pg .complete = pg.contCommand ∧
      takes pg .complete = pg.takenCommand := by
  rw [handles, takes]
  rcases h with h | h
  · rw [h]
    exact ⟨rfl, rfl⟩
  · rw [h]
    exact ⟨rfl, rfl⟩

theorem read_incomplete {pg' : Pg} (hstate : pg.state ≠ .exiting)
    (hdata : a.newdata ≠ [])
    (hinit : pg.initcmd a.newdata = (.incomplete, pg')) :
    Conversation.read ⟨some pg, t⟩ a = ⟨some pg', t⟩ := by
  obtain ⟨hcont, htaken⟩ := cont_of_initcmd hstate hdata hinit
  rw [Conversation.read]
  dsimp only
  rw [hcont, htaken]
  show (⟨some pg', t ++ []⟩ : Conversation) = _
  rw [List.append_nil]

theorem read_bogus {pg' : Pg} (hstate : pg.state ≠ .exiting)
    (hdata : a.newdata ≠ [])
    (hinit : pg.initcmd a.newdata = (.bogus, pg')) :
    Conversation.read ⟨some pg, t⟩ a = ⟨none, t⟩ := by
  obtain ⟨hcont, htaken⟩ := cont_of_initcmd hstate hdata hinit
  rw [Conversation.read]
  dsimp only
  rw [hcont, htaken]
  show (⟨none, t ++ []⟩ : Conversation) = _
  rw [List.append_nil]

theorem foldl_read_none (as : List Arrival) (t : List Taken) :
    as.foldl Conversation.read ⟨none, t⟩ = ⟨none, t⟩ := by
  induction as with
  | nil => rfl
  | cons a as ih => exact ih

/-! ## A message is complete -/

/-- The session waits for a new command, of a kind that the phase allows. -/
structure Ready (phase : Phase) (pg : Pg) : Prop where
  size : pg.size = 0
  inbuf : pg.inbuf = []
  state : match phase with
    | .start | .startup =>
        pg.state = .begin ∧ pg.startupArgs = fun _ => none
    | .password => pg.state = .auth
    | .commands => pg.state = .established ∨ pg.state = .aborted

/-- The session takes what it reads next for something that it is not. -/
def Deaf (pg : Pg) : ClientMessage → Prop
  | .sslRequest =>
      pg.state = .begin ∧ pg.size = 0 ∧ pg.inbuf = int32 80877103 ∧
        pg.startupArgs = fun _ => none
  | _ => pg.state ≠ .exiting ∧ pg.size ≠ 0 ∧ pg.inbuf.length + 4 = pg.size

theorem Ready.fits (h : Ready phase pg) (hnext : phase.next m = some phase') :
    (pg.state = .begin ↔ m.type = none) ∧ pg.state ≠ .exiting := by
  have hstate := h.state
  cases phase with
  | start =>
      cases m <;> simp_all [Phase.next, ClientMessage.type]
  | startup =>
      cases m <;> simp_all [Phase.next, ClientMessage.type]
  | password =>
      cases m <;> simp_all [Phase.next, ClientMessage.type]
  | commands =>
      rcases hstate with hstate | hstate <;>
        cases m <;> simp_all [Phase.next, ClientMessage.type]

theorem complete_sslRequest (hstate : pg.state = .begin) :
    handles (holdingAll pg .sslRequest) .complete =
        .goOn { holdingAll pg .sslRequest with size := 0 } ∧
      takes (holdingAll pg .sslRequest) .complete = some .sslRequest := by
  have hbegin : (holdingAll pg .sslRequest).contBegin true =
      .goOn { holdingAll pg .sslRequest with size := 0 } := by
    have hword : Pg.be32 (holdingAll pg .sslRequest).inbuf 0 = 80877103 := by
      show Pg.be32 (int32 80877103) 0 = 80877103
      decide
    have hsize : (holdingAll pg .sslRequest).size = 8 := rfl
    rw [Pg.contBegin, Pg.getInt32, if_neg (by show ¬ 0 + 4 > 4; omega)]
    dsimp only
    rw [if_pos hsize, hword, if_neg (by simp)]
  obtain ⟨hhandles, htakes⟩ := complete_begin
    (show (holdingAll pg .sslRequest).state = .begin from hstate)
  rw [hhandles, htakes, Pg.takenBegin, hbegin]
  exact ⟨rfl, if_pos rfl⟩

/-- The session behind its startup message. -/
def startedUp (pg : Pg) (ps : List (Bytes × Bytes)) : Pg :=
  { pg with
    startupArgs := startupArgs ps
    state := .auth
    size := 0
    inbuf := [] }

theorem complete_startup {ps : List (Bytes × Bytes)}
    (hm : (ClientMessage.startup ps).WellFormed) (hstate : pg.state = .begin)
    (hargs : pg.startupArgs = fun _ => none) :
    handles (holdingAll pg (.startup ps)) .complete =
        .goOn (startedUp (holdingAll pg (.startup ps)) ps) ∧
      takes (holdingAll pg (.startup ps)) .complete =
        some (.startup (startupArgs ps)) := by
  obtain ⟨_, hparams, huser⟩ := hm
  have hlen : (ClientMessage.startup ps).body.length =
      4 + ((ClientMessage.params ps).length + 1) := by
    rw [ClientMessage.body, List.length_append, List.length_append,
      length_int32, List.length_singleton]
  have hpos : 1 ≤ (ClientMessage.params ps).length := by
    obtain ⟨p, hp, _⟩ := huser
    exact Nat.le_trans (List.length_pos_of_mem hp) (length_le_params ps)
  have hsize : (holdingAll pg (.startup ps)).size ≠ 8 := by
    show (ClientMessage.startup ps).body.length + 4 ≠ 8
    omega
  have hword : Pg.be32 (holdingAll pg (.startup ps)).inbuf 0 = 196608 := by
    exact be32_int32 (by decide) [] (ClientMessage.params ps ++ [0])
  have hfit : ¬ 0 + 4 > (holdingAll pg (.startup ps)).inbuf.length := by
    show ¬ 0 + 4 > (ClientMessage.startup ps).body.length
    omega
  have hgets : Pg.getStartupArgs (holdingAll pg (.startup ps)).inbuf
      ((holdingAll pg (.startup ps)).inbuf.length + 1) (0 + 4)
      (holdingAll pg (.startup ps)).startupArgs =
        some (setParams (fun _ => none) ps) := by
    have hrounds : ps.length <
        (holdingAll pg (.startup ps)).inbuf.length + 1 := by
      have hle := length_le_params ps
      show ps.length < (ClientMessage.startup ps).body.length + 1
      omega
    have h := getStartupArgs_params hparams (int32 196608) [] hrounds
      (fun _ => none)
    rw [length_int32] at h
    rw [show (holdingAll pg (.startup ps)).startupArgs = fun _ => none
      from hargs]
    exact h
  obtain ⟨name, hname⟩ := Option.isSome_iff_exists.mp
    (show (setParams (fun _ => none) ps Pg.user).isSome from
      setParams_isSome (.inr huser))
  have hbegin : (holdingAll pg (.startup ps)).contBegin true =
      .goOn (startedUp (holdingAll pg (.startup ps)) ps) := by
    rw [Pg.contBegin, Pg.getInt32, if_neg hfit]
    dsimp only
    rw [if_neg hsize, hword, if_neg (by simp), hgets]
    dsimp only
    rw [hname]
    dsimp only
    rw [if_neg (by simp), startedUp, startupArgs]
    cases hdatabase : setParams (fun _ => none) ps Pg.database with
    | none => rw [hname]
    | some value => rfl
  obtain ⟨hhandles, htakes⟩ := complete_begin
    (show (holdingAll pg (.startup ps)).state = .begin from hstate)
  rw [hhandles, htakes, Pg.takenBegin, hbegin]
  exact ⟨rfl, if_neg hsize⟩

theorem complete_password {w : Bytes}
    (hm : (ClientMessage.password w).WellFormed) (hstate : pg.state = .auth) :
    (∃ username domainname,
      handles (holdingAll pg (.password w)) .complete =
        .login (holdingAll pg (.password w)) username domainname w) ∧
      takes (holdingAll pg (.password w)) .complete =
        some (.password w) := by
  have hget : Pg.getString (holdingAll pg (.password w)).inbuf 0 =
      some (w, w.length + 1) := by
    have h := getString_cstring hm.2 [] []
    rw [List.nil_append, List.append_nil] at h
    rw [show (0 : Nat) = ([] : Bytes).length from rfl]
    refine h.trans ?_
    rw [List.length_nil, Nat.zero_add]
  have hauth : (holdingAll pg (.password w)).contAuth =
      .login (holdingAll pg (.password w))
        (((holdingAll pg (.password w)).startupArgs Pg.user).getD [])
        (((holdingAll pg (.password w)).startupArgs Pg.database).getD [])
        w := by
    have htype : (holdingAll pg (.password w)).pgcmdtype = 112 := rfl
    rw [Pg.contAuth, if_neg (fun h => h htype), hget]
  obtain ⟨hhandles, htakes⟩ := complete_auth
    (show (holdingAll pg (.password w)).state = .auth from hstate)
  rw [hhandles, htakes, Pg.takenAuth, hauth]
  exact ⟨⟨_, _, rfl⟩, rfl⟩

theorem complete_query {q : Bytes} (hm : (ClientMessage.query q).WellFormed)
    (hstate : pg.state = .established ∨ pg.state = .aborted) :
    handles (holdingAll pg (.query q)) .complete =
        .goOn { holdingAll pg (.query q) with size := 0, inbuf := [] } ∧
      takes (holdingAll pg (.query q)) .complete = some (.query q) := by
  have hget : Pg.getString (holdingAll pg (.query q)).inbuf 0 =
      some (q, q.length + 1) := by
    have h := getString_cstring hm.2 [] []
    rw [List.nil_append, List.append_nil] at h
    rw [show (0 : Nat) = ([] : Bytes).length from rfl]
    refine h.trans ?_
    rw [List.length_nil, Nat.zero_add]
  have htype : (holdingAll pg (.query q)).pgcmdtype = 81 := rfl
  have hcommand : (holdingAll pg (.query q)).contCommand =
      .goOn { holdingAll pg (.query q) with size := 0, inbuf := [] } := by
    rw [Pg.contCommand, if_pos htype]
  have htaken : (holdingAll pg (.query q)).takenCommand =
      some (.query q) := by
    rw [Pg.takenCommand, if_pos htype, Pg.getQuery, hget]
  obtain ⟨hhandles, htakes⟩ :=
    complete_command
      (show (holdingAll pg (.query q)).state = .established ∨
        (holdingAll pg (.query q)).state = .aborted from hstate)
  exact ⟨hhandles.trans hcommand, htakes.trans htaken⟩

theorem complete_unknown {type : UInt8} {body : Bytes}
    (hm : (ClientMessage.unknown type body).WellFormed)
    (hstate : pg.state = .established ∨ pg.state = .aborted) :
    handles (holdingAll pg (.unknown type body)) .complete =
        .goOn (holdingAll pg (.unknown type body)) ∧
      takes (holdingAll pg (.unknown type body)) .complete =
        some (.unknown type body) := by
  obtain ⟨_, hquery, hterminate⟩ := hm
  have htype : (holdingAll pg (.unknown type body)).pgcmdtype = type := rfl
  have hcommand : (holdingAll pg (.unknown type body)).contCommand =
      .goOn (holdingAll pg (.unknown type body)) := by
    rw [Pg.contCommand, htype, if_neg hquery, if_neg hterminate]
  have htaken : (holdingAll pg (.unknown type body)).takenCommand =
      some (.unknown type body) := by
    rw [Pg.takenCommand, htype, if_neg hquery, if_neg hterminate]
    rfl
  obtain ⟨hhandles, htakes⟩ :=
    complete_command
      (show (holdingAll pg (.unknown type body)).state = .established ∨
        (holdingAll pg (.unknown type body)).state = .aborted from hstate)
  exact ⟨hhandles.trans hcommand, htakes.trans htaken⟩

/-- A read with which a command is complete. -/
theorem read_goOn {pg₁ pg₂ : Pg} {taken : Taken} (hstate : pg.state ≠ .exiting)
    (hdata : a.newdata ≠ [])
    (hinit : pg.initcmd a.newdata = (.complete, pg₁))
    (hhandles : handles pg₁ .complete = .goOn pg₂)
    (htakes : takes pg₁ .complete = some taken) :
    Conversation.read ⟨some pg, t⟩ a =
      ⟨some (pg₂.afterQuery a.aborted (some taken)), t ++ [taken]⟩ := by
  obtain ⟨hcont, htaken⟩ := cont_of_initcmd hstate hdata hinit
  rw [Conversation.read]
  dsimp only
  rw [hcont, htaken, hhandles, htakes]
  rfl

theorem read_login {pg₁ pg₂ : Pg} {u d w : Bytes} {taken : Taken}
    (hstate : pg.state ≠ .exiting) (hdata : a.newdata ≠ [])
    (hinit : pg.initcmd a.newdata = (.complete, pg₁))
    (hhandles : handles pg₁ .complete = .login pg₂ u d w)
    (htakes : takes pg₁ .complete = some taken) :
    Conversation.read ⟨some pg, t⟩ a =
      ⟨some (pg₂.continueLogin a.login true).1, t ++ [taken]⟩ := by
  obtain ⟨hcont, htaken⟩ := cont_of_initcmd hstate hdata hinit
  have hopen : (pg₂.continueLogin a.login true).2 = true := by
    rw [Pg.continueLogin]
    split
    · rfl
    · rfl
  rw [Conversation.read]
  dsimp only
  rw [hcont, htaken, hhandles, htakes]
  show (⟨if (pg₂.continueLogin a.login true).2 then _ else none, _⟩ :
    Conversation) = _
  rw [if_pos hopen]
  rfl

theorem read_ends (hready : Ready phase pg)
    (hnext : phase.next m = some phase') (hm : m.WellFormed)
    (hdata : a.newdata ≠ []) (heq : buf ++ a.newdata = m.bytes) :
    ∃ pg', Conversation.read ⟨some (holding pg m buf), t⟩ a =
        ⟨some pg', t ++ [m.taken]⟩ ∧
      (Resets a m → Ready phase' pg') ∧ (¬ Resets a m → Deaf pg' m) := by
  obtain ⟨hfit, hstate⟩ := hready.fits hnext
  have hheld : (holding pg m buf).state ≠ .exiting := by
    rw [holding_state]
    exact hstate
  have hinit := initcmd_ends hm hfit heq
  have hwas := hready.state
  cases m with
  | sslRequest =>
      cases phase with
      | start =>
          obtain ⟨hhandles, htakes⟩ := complete_sslRequest hwas.1
          exact ⟨_, read_goOn hheld hdata hinit hhandles htakes,
            fun h => h.elim, fun _ => ⟨hwas.1, rfl, rfl, hwas.2⟩⟩
      | startup => exact absurd hnext (by simp [Phase.next])
      | password => exact absurd hnext (by simp [Phase.next])
      | commands => exact absurd hnext (by simp [Phase.next])
  | startup ps =>
      have hbegin : pg.state = .begin ∧ (pg.startupArgs = fun _ => none) ∧
          phase' = .password := by
        cases phase with
        | start => exact ⟨hwas.1, hwas.2, (Option.some.inj hnext).symm⟩
        | startup => exact ⟨hwas.1, hwas.2, (Option.some.inj hnext).symm⟩
        | password => exact absurd hnext (by simp [Phase.next])
        | commands => exact absurd hnext (by simp [Phase.next])
      obtain ⟨hbegin, hargs, rfl⟩ := hbegin
      obtain ⟨hhandles, htakes⟩ := complete_startup hm hbegin hargs
      exact ⟨_, read_goOn hheld hdata hinit hhandles htakes,
        fun _ => ⟨rfl, rfl, rfl⟩, fun h => absurd trivial h⟩
  | password w =>
      have hauth : pg.state = .auth ∧ phase' = .commands := by
        cases phase with
        | start => exact absurd hnext (by simp [Phase.next])
        | startup => exact absurd hnext (by simp [Phase.next])
        | password => exact ⟨hwas, (Option.some.inj hnext).symm⟩
        | commands => exact absurd hnext (by simp [Phase.next])
      obtain ⟨hauth, rfl⟩ := hauth
      obtain ⟨⟨u, d, hhandles⟩, htakes⟩ := complete_password hm hauth
      refine ⟨_, read_login hheld hdata hinit hhandles htakes,
        fun hok => ?_, fun hno => ?_⟩
      · have hok : a.login.ok = true := hok
        rw [Pg.continueLogin, if_pos hok]
        exact ⟨rfl, rfl, .inl rfl⟩
      · have hno : ¬ a.login.ok = true := hno
        rw [Pg.continueLogin, if_neg hno]
        exact ⟨hstate, Nat.succ_ne_zero _, rfl⟩
  | query q =>
      have hcommand : (pg.state = .established ∨ pg.state = .aborted) ∧
          phase' = .commands := by
        cases phase with
        | start => exact absurd hnext (by simp [Phase.next])
        | startup => exact absurd hnext (by simp [Phase.next])
        | password => exact absurd hnext (by simp [Phase.next])
        | commands => exact ⟨hwas, (Option.some.inj hnext).symm⟩
      obtain ⟨hcommand, rfl⟩ := hcommand
      obtain ⟨hhandles, htakes⟩ := complete_query hm hcommand
      refine ⟨_, read_goOn hheld hdata hinit hhandles htakes,
        fun _ => ⟨rfl, rfl, ?_⟩, fun h => absurd trivial h⟩
      show (if a.aborted then PgState.aborted else .established) =
          .established ∨
        (if a.aborted then PgState.aborted else .established) = .aborted
      cases a.aborted with
      | false => exact .inl rfl
      | true => exact .inr rfl
  | unknown type body =>
      have hcommand : pg.state = .established ∨ pg.state = .aborted := by
        cases phase with
        | start => exact absurd hnext (by simp [Phase.next])
        | startup => exact absurd hnext (by simp [Phase.next])
        | password => exact absurd hnext (by simp [Phase.next])
        | commands => exact hwas
      obtain ⟨hhandles, htakes⟩ := complete_unknown hm hcommand
      exact ⟨_, read_goOn hheld hdata hinit hhandles htakes,
        fun h => h.elim, fun _ => ⟨hstate, Nat.succ_ne_zero _, rfl⟩⟩

/-! ## A session that is not ready -/

/-- A session behind an SSL request, that has read this of what follows. -/
def mistaken (pg : Pg) (buf : Bytes) : Pg :=
  if buf = [] then { pg with size := 0, inbuf := int32 80877103 }
  else { pg with size := 80877103, inbuf := buf }

theorem initcmd_mistaken (hstate : pg.state = .begin) :
    (mistaken pg buf).initcmd a.newdata =
      Pg.received { pg with
        size := 80877103, inbuf := buf ++ a.newdata } := by
  by_cases hbuf : buf = []
  · have hlen : ¬ (int32 80877103 ++ a.newdata).length < 4 := by
      rw [List.length_append, length_int32]
      omega
    have hword : Pg.be32 (int32 80877103 ++ a.newdata) 0 = 80877103 :=
      be32_int32 (by decide) [] a.newdata
    rw [mistaken, if_pos hbuf, Pg.initcmd]
    dsimp only
    rw [if_pos rfl, if_pos hstate, if_neg hlen, if_pos hstate, hword,
      List.drop_left' (length_int32 _), hbuf, List.nil_append]
  · rw [mistaken, if_neg hbuf, Pg.initcmd]
    dsimp only
    rw [if_neg (by decide)]

/-- What is complete then is no startup message: where its parameters would
begin is the high byte of the version. -/
theorem contBegin_mistaken {ps : List (Bytes × Bytes)}
    (hsize : pg.size = 80877103) (hlen : pg.inbuf.length + 4 = 80877103)
    (hargs : pg.startupArgs = fun _ => none)
    (hstream : pg.inbuf ++ more = (ClientMessage.startup ps).bytes ++ rest) :
    pg.contBegin true = .closesocket := by
  have hhigh : pg.inbuf.getD (0 + 4) 0 = 0 := by
    have hheader : (ClientMessage.startup ps).header.length = 4 :=
      length_header _
    obtain ⟨tail, htail⟩ := header_append hstream (by omega)
    have hpos : 1 ≤ tail.length := by
      have h := congrArg List.length htail
      rw [List.length_append] at h
      omega
    have hzero : tail ++ more = 0 :: ([3, 0, 0] ++
        (ClientMessage.params ps ++ [0]) ++ rest) := by
      rw [htail, ClientMessage.bytes, List.append_assoc,
        List.append_assoc] at hstream
      exact List.append_cancel_left hstream
    cases tail with
    | nil => exact absurd hpos (by simp)
    | cons b tail =>
        injection hzero with hb _
        rw [htail, hb, List.getD_eq_getElem?_getD,
          List.getElem?_append_right (by omega), hheader]
        rfl
  rw [Pg.contBegin, Pg.getInt32, if_neg (by omega)]
  dsimp only
  rw [hsize, if_neg (by decide)]
  split
  · rfl
  · rw [Pg.getStartupArgs, if_pos hhigh, hargs]

theorem foldl_mistaken {ps : List (Bytes × Bytes)} {as : List Arrival}
    (hstate : pg.state = .begin) (hargs : pg.startupArgs = fun _ => none)
    (hnonempty : ∀ a ∈ as, a.newdata ≠ [])
    (hstream : buf ++ (as.map (·.newdata)).flatten =
      (ClientMessage.startup ps).bytes ++ rest) :
    (as.foldl Conversation.read ⟨some (mistaken pg buf), t⟩).taken = t := by
  induction as generalizing buf with
  | nil => rfl
  | cons a as ih =>
      have hdata := hnonempty a List.mem_cons_self
      have hstream' : buf ++ a.newdata ++ (as.map (·.newdata)).flatten =
          (ClientMessage.startup ps).bytes ++ rest := by
        rw [← hstream, List.map_cons, List.flatten_cons, List.append_assoc]
      have hbegin : (mistaken pg buf).state = .begin := by
        rw [mistaken]
        split
        · exact hstate
        · exact hstate
      have hexit : (mistaken pg buf).state ≠ .exiting := by
        rw [hbegin]
        simp
      have hne : buf ++ a.newdata ≠ [] := fun h =>
        hdata (List.append_eq_nil_iff.mp h).2
      have hinit : (mistaken pg buf).initcmd a.newdata =
          Pg.received (mistaken pg (buf ++ a.newdata)) := by
        rw [initcmd_mistaken hstate, mistaken, if_neg hne]
      rw [List.foldl_cons]
      rw [Pg.received] at hinit
      split at hinit
      · next hlen =>
        have hheld : mistaken pg (buf ++ a.newdata) =
            { pg with size := 80877103, inbuf := buf ++ a.newdata } :=
          if_neg hne
        have hcloses : (mistaken pg (buf ++ a.newdata)).contBegin true =
            .closesocket := by
          rw [hheld] at hlen ⊢
          exact contBegin_mistaken rfl hlen hargs hstream'
        obtain ⟨hhandles, htakes⟩ := complete_begin
          (show (mistaken pg (buf ++ a.newdata)).state = .begin by
            rw [hheld]
            exact hstate)
        obtain ⟨hcont, htaken⟩ := cont_of_initcmd hexit hdata hinit
        rw [Conversation.read]
        dsimp only
        rw [hcont, htaken, hhandles, htakes, Pg.takenBegin, hcloses]
        show (as.foldl Conversation.read ⟨none, t ++ []⟩).taken = t
        rw [foldl_read_none, List.append_nil]
      · split at hinit
        · rw [read_incomplete hexit hdata hinit]
          exact ih (fun b hb => hnonempty b (List.mem_cons_of_mem _ hb))
            hstream'
        · rw [read_bogus hexit hdata hinit, foldl_read_none]

/-- Nothing is taken any more. -/
theorem foldl_deaf {as : List Arrival} (hdeaf : Deaf pg m)
    (hnext : phase.next m = some phase') (hord : InOrder phase' ms)
    (hms : ms ≠ []) (hnonempty : ∀ a ∈ as, a.newdata ≠ [])
    (hstream : (as.map (·.newdata)).flatten =
      (ms.map ClientMessage.bytes).flatten) :
    ¬ ((as.foldl Conversation.read ⟨some pg, t⟩).pg.isSome ∧
      (as.foldl Conversation.read ⟨some pg, t⟩).taken =
        t ++ ms.map ClientMessage.taken) := by
  have htyped : pg.state ≠ .exiting → pg.size ≠ 0 →
      pg.inbuf.length + 4 = pg.size →
      ¬ (as.foldl Conversation.read ⟨some pg, t⟩).pg.isSome := by
    intro hstate hsize hlen
    cases as with
    | nil =>
        cases ms with
        | nil => exact absurd rfl hms
        | cons m ms =>
            have h := congrArg List.length hstream
            rw [List.map_cons, List.flatten_cons, List.length_append,
              length_bytes] at h
            have hpos := header_pos m
            simp only [List.map_nil, List.flatten_nil, List.length_nil] at h
            omega
    | cons a as =>
        have hdata := hnonempty a List.mem_cons_self
        have hpos := List.length_pos_iff.mpr hdata
        have hmore : (pg.inbuf ++ a.newdata).length =
            pg.inbuf.length + a.newdata.length := List.length_append
        have hinit : pg.initcmd a.newdata =
            (.bogus, { pg with inbuf := pg.inbuf ++ a.newdata }) := by
          rw [Pg.initcmd, if_neg hsize, Pg.received]
          dsimp only
          rw [if_neg (by omega), if_neg (by omega)]
        rw [List.foldl_cons, read_bogus hstate hdata hinit, foldl_read_none]
        simp
  cases m with
  | sslRequest =>
      obtain ⟨hstate, hsize, hinbuf, hargs⟩ := hdeaf
      cases ms with
      | nil => exact absurd rfl hms
      | cons m ms =>
          have hphase : phase' = .startup := by
            cases phase with
            | start => exact (Option.some.inj hnext).symm
            | startup => exact absurd hnext (by simp [Phase.next])
            | password => exact absurd hnext (by simp [Phase.next])
            | commands => exact absurd hnext (by simp [Phase.next])
          subst hphase
          obtain ⟨_, phase'', hnext', _⟩ := hord
          cases m with
          | startup ps =>
              have hpg : pg = mistaken pg [] := by
                rw [mistaken, if_pos rfl]
                cases pg
                subst hsize hinbuf
                rfl
              have htaken : (as.foldl Conversation.read
                  ⟨some (mistaken pg []), t⟩).taken = t :=
                foldl_mistaken hstate hargs hnonempty hstream
              rw [← hpg] at htaken
              rw [htaken]
              simp
          | sslRequest => exact absurd hnext' (by simp [Phase.next])
          | password w => exact absurd hnext' (by simp [Phase.next])
          | query q => exact absurd hnext' (by simp [Phase.next])
          | unknown type body => exact absurd hnext' (by simp [Phase.next])
  | startup ps => exact fun h => htyped hdeaf.1 hdeaf.2.1 hdeaf.2.2 h.1
  | password w => exact fun h => htyped hdeaf.1 hdeaf.2.1 hdeaf.2.2 h.1
  | query q => exact fun h => htyped hdeaf.1 hdeaf.2.1 hdeaf.2.2 h.1
  | unknown type body =>
      exact fun h => htyped hdeaf.1 hdeaf.2.1 hdeaf.2.2 h.1

/-! ## The whole stream -/

theorem eq_nil_of_flatten {as : List Arrival}
    (hnonempty : ∀ a ∈ as, a.newdata ≠ [])
    (h : (as.map (·.newdata)).flatten = []) : as = [] := by
  cases as with
  | nil => rfl
  | cons a as =>
      rw [List.map_cons, List.flatten_cons, List.append_eq_nil_iff] at h
      exact absurd h.1 (hnonempty a List.mem_cons_self)

theorem processes_from {as : List Arrival} (hready : Ready phase pg)
    (hord : InOrder phase (m :: ms)) (hlt : buf.length < m.bytes.length)
    (hnonempty : ∀ a ∈ as, a.newdata ≠ [])
    (hstream : buf ++ (as.map (·.newdata)).flatten =
      m.bytes ++ (ms.map ClientMessage.bytes).flatten) :
    ((as.foldl Conversation.read ⟨some (holding pg m buf), t⟩).pg.isSome ∧
      (as.foldl Conversation.read ⟨some (holding pg m buf), t⟩).taken =
        t ++ (m :: ms).map ClientMessage.taken) ↔ InStep buf (m :: ms) as := by
  induction as generalizing m ms buf pg t phase with
  | nil =>
      have h := congrArg List.length hstream
      rw [List.map_nil, List.flatten_nil, List.append_nil,
        List.length_append] at h
      omega
  | cons a as ih =>
      obtain ⟨hm, phase', hnext, hrest⟩ := hord
      obtain ⟨hfit, hstate⟩ := hready.fits hnext
      have hdata := hnonempty a List.mem_cons_self
      have hnonempty' : ∀ b ∈ as, b.newdata ≠ [] := fun b hb =>
        hnonempty b (List.mem_cons_of_mem _ hb)
      have hstream' : buf ++ a.newdata ++ (as.map (·.newdata)).flatten =
          m.bytes ++ (ms.map ClientMessage.bytes).flatten := by
        rw [← hstream, List.map_cons, List.flatten_cons, List.append_assoc]
      have hheld : (holding pg m buf).state ≠ .exiting := by
        rw [holding_state]
        exact hstate
      rw [List.foldl_cons]
      rcases Nat.lt_trichotomy (buf ++ a.newdata).length m.bytes.length
        with hinside | hends | hbeyond
      · rw [read_incomplete hheld hdata
          (initcmd_inside hm hfit hstream' hinside),
          ih hready ⟨hm, phase', hnext, hrest⟩ hinside hnonempty' hstream']
        refine ⟨.inside hinside, fun h => ?_⟩
        cases h with
        | inside _ h => exact h
        | ends heq _ _ =>
            rw [heq] at hinside
            exact absurd hinside (Nat.lt_irrefl _)
      · obtain ⟨heq, htail⟩ := List.append_inj hstream' hends
        obtain ⟨pg', hread, hresets, hdeaf⟩ :=
          read_ends (t := t) hready hnext hm hdata heq
        rw [hread]
        cases ms with
        | nil =>
            obtain rfl := eq_nil_of_flatten hnonempty' htail
            exact ⟨fun _ => .ends heq (.inl rfl) .nil, fun _ => ⟨rfl, rfl⟩⟩
        | cons m' ms =>
            by_cases hreset : Resets a m
            · have hready' := hresets hreset
              have hpg := holding_nil hready'.size hready'.inbuf m'
              have hlt' : ([] : Bytes).length < m'.bytes.length := by
                rw [length_bytes]
                exact Nat.add_pos_left (header_pos m') _
              have h := ih (t := t ++ [m.taken]) hready' hrest hlt'
                hnonempty' htail
              rw [hpg, List.append_assoc] at h
              refine h.trans ⟨.ends heq (.inr hreset), fun h => ?_⟩
              cases h with
              | inside hlt _ =>
                  rw [hends] at hlt
                  exact absurd hlt (Nat.lt_irrefl _)
              | ends _ _ h => exact h
            · have hnot := foldl_deaf (t := t ++ [m.taken]) (hdeaf hreset)
                hnext hrest (by simp) hnonempty' htail
              rw [List.append_assoc] at hnot
              refine ⟨fun h => absurd h hnot, fun h => ?_⟩
              cases h with
              | inside hlt _ =>
                  rw [hends] at hlt
                  exact absurd hlt (Nat.lt_irrefl _)
              | ends _ h _ =>
                  rcases h with h | h
                  · exact absurd h (by simp)
                  · exact absurd h hreset
      · rw [read_bogus hheld hdata
          (initcmd_beyond hm hfit hstream' hbeyond), foldl_read_none]
        refine ⟨fun h => absurd h.1 (by simp), fun h => ?_⟩
        cases h with
        | inside hlt _ => omega
        | ends heq _ _ =>
            rw [heq] at hbeyond
            exact absurd hbeyond (Nat.lt_irrefl _)

end Framing

/-- A session takes exactly the messages of a stream when each ends where a
read ends, and none follows one that the session is not ready behind: an SSL
request, a password that is refused, a command that is not known. -/
theorem processes_iff {arrivals : List Arrival} {ms : List ClientMessage}
    (sockfd : Int) (hord : InOrder .start ms) (hcuts : Cuts arrivals ms) :
    Processes sockfd arrivals ms ↔ InStep [] ms arrivals := by
  have hready : Framing.Ready .start (.new sockfd) := ⟨rfl, rfl, rfl, rfl⟩
  cases ms with
  | nil =>
      obtain rfl := Framing.eq_nil_of_flatten hcuts.nonempty hcuts.flatten
      exact ⟨fun _ => .nil, fun _ => ⟨rfl, rfl⟩⟩
  | cons m ms =>
      have hlt : ([] : Bytes).length < m.bytes.length := by
        rw [Framing.length_bytes]
        exact Nat.add_pos_left (Framing.header_pos m) _
      have h := Framing.processes_from (t := []) hready hord hlt
        hcuts.nonempty hcuts.flatten
      rwa [Framing.holding_nil rfl rfl] at h

/-! ## A login and a query, and an SSL request before a startup message -/

/-- A client whose user is "u". -/
def startupOfU : ClientMessage := .startup [(Pg.user, [117])]

/-- A read that brings this, with all replies in its favour. -/
def piece (newdata : Bytes) : Arrival := ⟨newdata, { ok := true }, false⟩

theorem startupOfU_wellFormed : startupOfU.WellFormed :=
  ⟨by decide, by decide, by decide⟩

/-- The startup message comes in two reads. -/
theorem processes_login :
    Processes 7
      [piece (startupOfU.bytes.take 3), piece (startupOfU.bytes.drop 3),
        piece (ClientMessage.password [112]).bytes,
        piece (ClientMessage.query []).bytes]
      [startupOfU, .password [112], .query []] := by
  refine (processes_iff 7 ?_ ⟨by decide, by decide⟩).mpr ?_
  · exact ⟨startupOfU_wellFormed, _, rfl, ⟨by decide, by decide⟩, _, rfl,
      ⟨by decide, by decide⟩, _, rfl, trivial⟩
  · exact .inside (by decide) <| .ends (by decide) (.inr trivial) <|
      .ends rfl (.inr rfl) <| .ends rfl (.inl rfl) .nil

/-- The startup message behind an SSL request is not taken. -/
theorem sslRequest_not_processes :
    ¬ ∀ (sockfd : Int) (arrivals : List Arrival) (ms : List ClientMessage),
      InOrder .start ms → Cuts arrivals ms →
        Processes sockfd arrivals ms := by
  intro h
  have hprocesses := h 7
    [piece ClientMessage.sslRequest.bytes, piece startupOfU.bytes]
    [.sslRequest, startupOfU]
    ⟨⟨by decide, trivial⟩, _, rfl, startupOfU_wellFormed, _, rfl, trivial⟩
    ⟨by decide, by decide⟩
  have hlen := congrArg List.length hprocesses.2
  exact absurd hlen (by decide +kernel)

end Infinisql.Proofs
