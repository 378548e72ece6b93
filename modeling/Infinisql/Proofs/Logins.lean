import Infinisql.Spec.Accounts
import Infinisql.Lib.Run

/-!
# Logins accept the right password

`accounts` reads the table of `Spec/Accounts` off the user manager: the maps
behind the pointers, and nothing of what a request leaves in the members.
Each request then has to do to the table what the specification says, and to
answer as it says.

Five of the seven do, from every sound state. The two that do not are those
that read a left-over member. `changepassword` looks for the user in the map
that `userIdToPassword` points to, which belongs to whichever domain was used
last. `operationLogin` compares the digest in `pwdStruct`, which belongs to
whichever user was. The conditions under which they still do the right thing
are exact.
-/

namespace Infinisql.Proofs

open Infinisql.Ref Infinisql.Spec Infinisql.Lib

variable {D : Type} [DecidableEq D] {sha512 : Bytes → D}

/-! ## The table of a user manager -/

/-- What the user manager's maps say. -/
def accounts (m : UserSchemaMgr D) : Accounts D where
  domains := m.domainNameToDomainId
  users := fun key => (m.domainIdToUserNames key.1).bind (· key.2)
  digest := fun key =>
    (m.userIds key.1).bind fun uids => (uids key.2).map (·.digest)
  lastDomain := m.nextdomainid
  lastUser := fun did => (m.domainIdToNextUserId did).getD 0

/-- What every request keeps: a domain that has a name has its three maps,
no two names are one domain, and no two domains share a map. -/
structure Managed (m : UserSchemaMgr D) : Prop where
  names : ∀ {n did}, m.domainNameToDomainId n = some did →
    (m.domainIdToUserNames did).isSome
  ids : ∀ {n did}, m.domainNameToDomainId n = some did →
    (m.domainIdToUserIds did).isSome
  next : ∀ {n did}, m.domainNameToDomainId n = some did →
    (m.domainIdToNextUserId did).isSome
  bound : ∀ {n did}, m.domainNameToDomainId n = some did →
    did ≤ m.nextdomainid
  inj : ∀ {n n' did}, m.domainNameToDomainId n = some did →
    m.domainNameToDomainId n' = some did → n = n'
  live : ∀ {did addr}, m.domainIdToUserIds did = some addr →
    ∃ uids, m.maps addr = some uids
  fresh : ∀ {did addr}, m.domainIdToUserIds did = some addr →
    did ≤ m.nextdomainid ∧ addr < m.nextAddr
  apart : ∀ {did did' addr}, m.domainIdToUserIds did = some addr →
    m.domainIdToUserIds did' = some addr → did = did'
  owned : ∀ {addr uids}, m.maps addr = some uids →
    ∃ did, m.domainIdToUserIds did = some addr

/-- The condition of the two requests that read a left-over member. The
others have none.

A password is changed where `userIdToPassword` points to the map of the
user's own domain. Through the map of another domain that is still there it
comes to the same only if the user id is in neither map, or the change makes
no difference to either. An operation's login compares with the digest that
was used last. -/
def MembersRight (sha512 : Bytes → D) (m : UserSchemaMgr D) :
    UserRequest → Prop
  | .changepassword domainid userid password =>
      ∀ own, m.domainIdToUserIds domainid = some own →
        ∃ addr uids, m.userIdToPassword = some addr ∧
          m.maps addr = some uids ∧
          (addr = own ∨
            (uids userid).map (·.digest) =
                (accounts m).digest (domainid, userid) ∧
              ∀ digest ∈ (uids userid).map (·.digest),
                digest = sha512 password)
  | .operationLogin username domainname password =>
      ∀ digest ∈
          ((accounts m).user domainname username).bind (accounts m).digest,
        m.pwdStruct.digest = sha512 password ↔ digest = sha512 password
  | _ => True

/-! ## Maps and pointers -/

section

omit [DecidableEq D]

variable {m : UserSchemaMgr D} {did uid : Int} {addr : Addr}
  {uids : UserIdToPasswordMap D}

theorem userIds_eq (h : m.domainIdToUserIds did = some addr) :
    m.userIds did = m.maps addr := by
  rw [UserSchemaMgr.userIds, h, Option.bind_some]

/-- The left-over members are no part of the table. -/
theorem Managed.members (hm : Managed m) (ptr : Option Addr)
    (pwd : PasswordStruct D) (domainid userid : Int) :
    Managed { m with userIdToPassword := ptr, pwdStruct := pwd
                     domainid := domainid, userid := userid } :=
  ⟨hm.names, hm.ids, hm.next, hm.bound, hm.inj, hm.live, hm.fresh, hm.apart,
    hm.owned⟩

/-- A map on the heap is overwritten. -/
abbrev setMap (m : UserSchemaMgr D) (addr : Addr)
    (uids : UserIdToPasswordMap D) : UserSchemaMgr D :=
  { m with maps := Function.update m.maps addr (some uids) }

theorem Managed.setMap (hm : Managed m)
    (h : m.domainIdToUserIds did = some addr) (x : UserIdToPasswordMap D) :
    Managed (setMap m addr x) where
  names := hm.names
  ids := hm.ids
  next := hm.next
  bound := hm.bound
  inj := hm.inj
  live := by
    intro did' addr' h'
    dsimp only
    by_cases heq : addr' = addr
    · exact ⟨x, by rw [heq, Function.update_self]⟩
    · rw [Function.update_of_ne heq]
      exact hm.live h'
  fresh := hm.fresh
  apart := hm.apart
  owned := by
    intro addr' uids' h'
    dsimp only at h'
    by_cases heq : addr' = addr
    · exact ⟨did, heq ▸ h⟩
    · rw [Function.update_of_ne heq] at h'
      exact hm.owned h'

/-- The names of a domain are overwritten. -/
theorem Managed.setNames (hm : Managed m) (did : Int)
    (x : UserNameToUserIdMap) :
    Managed { m with domainIdToUserNames :=
                       Function.update m.domainIdToUserNames did (some x) } where
  names := by
    intro n did' h'
    dsimp only
    by_cases heq : did' = did
    · rw [heq, Function.update_self]
      rfl
    · rw [Function.update_of_ne heq]
      exact hm.names h'
  ids := hm.ids
  next := hm.next
  bound := hm.bound
  inj := hm.inj
  live := hm.live
  fresh := hm.fresh
  apart := hm.apart
  owned := hm.owned

theorem Managed.setNext (hm : Managed m) (did n : Int) :
    Managed { m with domainIdToNextUserId :=
                       Function.update m.domainIdToNextUserId did (some n) } where
  names := hm.names
  ids := hm.ids
  next := by
    intro n did' h'
    dsimp only
    by_cases heq : did' = did
    · rw [heq, Function.update_self]
      rfl
    · rw [Function.update_of_ne heq]
      exact hm.next h'
  bound := hm.bound
  inj := hm.inj
  live := hm.live
  fresh := hm.fresh
  apart := hm.apart
  owned := hm.owned

/-- Writing one entry of a domain's map writes one entry of the table. -/
theorem digest_setMap (hm : Managed m)
    (h : m.domainIdToUserIds did = some addr) (hu : m.maps addr = some uids)
    (pwd : Option (PasswordStruct D)) :
    (accounts (setMap m addr (Function.update uids uid pwd))).digest =
      Function.update (accounts m).digest (did, uid)
        (pwd.map (·.digest)) := by
  funext key
  obtain ⟨did', uid'⟩ := key
  show ((m.domainIdToUserIds did').bind (Function.update m.maps addr
    (some (Function.update uids uid pwd)))).bind
      (fun uids => (uids uid').map (·.digest)) = _
  by_cases hdid : did' = did
  · subst hdid
    rw [h, Option.bind_some, Function.update_self, Option.bind_some]
    by_cases huid : uid' = uid
    · rw [huid, Function.update_self, Function.update_self]
    · rw [Function.update_of_ne huid, Function.update_of_ne (by simp [huid])]
      show _ = (m.userIds did').bind _
      rw [userIds_eq h, hu]
      rfl
  · rw [Function.update_of_ne (by simp [hdid])]
    show _ = ((m.domainIdToUserIds did').bind m.maps).bind _
    cases hd : m.domainIdToUserIds did' with
    | none => rfl
    | some addr' =>
        have hne : addr' ≠ addr := fun heq => hdid (hm.apart (heq ▸ hd) h)
        rw [Option.bind_some, Option.bind_some, Function.update_of_ne hne]

end

/-! ## The two logins -/

variable (sha512) in
/-- Whether a login is accepted, in terms of the user manager's maps. -/
theorem accepts_eq {m : UserSchemaMgr D} {domainname username : Bytes}
    (password : Bytes) {did uid : Int} {names : UserNameToUserIdMap}
    (h1 : m.domainNameToDomainId domainname = some did)
    (h2 : m.domainIdToUserNames did = some names)
    (h3 : names username = some uid) :
    (accounts m).user domainname username = some (did, uid) ∧
      (accounts m).accepts sha512 domainname username password =
        decide ((accounts m).digest (did, uid) = some (sha512 password)) := by
  have huser : (accounts m).user domainname username = some (did, uid) := by
    show (m.domainNameToDomainId domainname).bind _ = _
    rw [h1, Option.bind_some]
    show Option.map _ ((m.domainIdToUserNames did).bind _) = _
    rw [h2, Option.bind_some, h3]
    rfl
  refine ⟨huser, ?_⟩
  rw [Accounts.accepts, huser, Option.bind_some]

variable (sha512) in
/-- `login` compares with the record it has just looked up. -/
theorem login_spec {m : UserSchemaMgr D} (hm : Managed m)
    (domainname username password : Bytes) :
    ∃ m' reply,
      m.login sha512 domainname username password = some (m', reply) ∧
        Managed m' ∧ accounts m' = accounts m ∧
        reply.ok = (accounts m).accepts sha512 domainname username
          password := by
  rw [UserSchemaMgr.login]
  cases h1 : m.domainNameToDomainId domainname with
  | none => exact ⟨m, _, rfl, hm, rfl, by
      simp [Accounts.accepts, Accounts.user, accounts, h1]⟩
  | some did =>
  dsimp only
  cases h2 : m.domainIdToUserNames did with
  | none => exact ⟨m, _, rfl, hm, rfl, by
      simp [Accounts.accepts, Accounts.user, accounts, h1, h2]⟩
  | some names =>
  dsimp only
  cases h3 : names username with
  | none => exact ⟨m, _, rfl, hm, rfl, by
      simp [Accounts.accepts, Accounts.user, accounts, h1, h2, h3]⟩
  | some uid =>
  dsimp only
  obtain ⟨addr, h4⟩ := Option.isSome_iff_exists.mp (hm.ids h1)
  obtain ⟨uids, h5⟩ := hm.live h4
  obtain ⟨_, hacc⟩ := accepts_eq sha512 password h1 h2 h3
  have hdig : (accounts m).digest (did, uid) =
      (uids uid).map (·.digest) := by
    show (m.userIds did).bind _ = _
    rw [userIds_eq h4, h5]
    rfl
  rw [userIds_eq h4, h5, hacc, hdig]
  dsimp only
  cases h6 : uids uid with
  | none => exact ⟨_, _, rfl, hm.members _ _ _ _, rfl, by simp⟩
  | some pwd =>
      dsimp only
      split
      · next hne => exact ⟨_, _, rfl, hm.members _ _ _ _, rfl, by simp [hne]⟩
      · next heq =>
          refine ⟨_, _, rfl, hm.members _ _ _ _, rfl, ?_⟩
          simpa using heq

variable (sha512) in
/-- `operationLogin` changes nothing, and is right exactly if the digest used
last passes for the user's. -/
theorem operationLogin_spec {m : UserSchemaMgr D} (hm : Managed m)
    (username domainname password : Bytes) :
    ∃ reply,
      m.operationLogin sha512 username domainname password = some reply ∧
        (reply.ok = (accounts m).accepts sha512 domainname username password ↔
          MembersRight sha512 m
            (.operationLogin username domainname password)) := by
  rw [UserSchemaMgr.operationLogin]
  cases h1 : m.domainNameToDomainId domainname with
  | none =>
      refine ⟨_, rfl, ?_⟩
      simp [MembersRight, Accounts.accepts, Accounts.user, accounts, h1]
  | some did =>
  dsimp only
  cases h2 : m.domainIdToUserNames did with
  | none =>
      refine ⟨_, rfl, ?_⟩
      simp [MembersRight, Accounts.accepts, Accounts.user, accounts, h1, h2]
  | some names =>
  dsimp only
  cases h3 : names username with
  | none =>
      refine ⟨_, rfl, ?_⟩
      simp [MembersRight, Accounts.accepts, Accounts.user, accounts, h1, h2, h3]
  | some uid =>
  dsimp only
  obtain ⟨addr, h4⟩ := Option.isSome_iff_exists.mp (hm.ids h1)
  obtain ⟨uids, h5⟩ := hm.live h4
  obtain ⟨huser, hacc⟩ := accepts_eq sha512 password h1 h2 h3
  have hdig : (accounts m).digest (did, uid) =
      (uids uid).map (·.digest) := by
    show (m.userIds did).bind _ = _
    rw [userIds_eq h4, h5]
    rfl
  rw [userIds_eq h4, h5, hacc, MembersRight, huser, Option.bind_some, hdig]
  dsimp only
  cases uids uid with
  | none => exact ⟨_, rfl, by simp⟩
  | some pwd => exact ⟨_, rfl, by simp⟩

/-! ## Changing a password -/

/-- The same value written in one place or in another. -/
theorem update_eq_update_iff {K V : Type*} [DecidableEq K] {f : K → V}
    {a b : K} {v : V} : Function.update f a v = Function.update f b v ↔
      a = b ∨ f a = v ∧ f b = v := by
  constructor
  · intro h
    by_cases hab : a = b
    · exact .inl hab
    · have ha := congrFun h a
      have hb := congrFun h b
      rw [Function.update_self, Function.update_of_ne hab] at ha
      rw [Function.update_self, Function.update_of_ne (Ne.symm hab)] at hb
      exact .inr ⟨ha.symm, hb⟩
  · intro h
    rcases h with rfl | ⟨ha, hb⟩
    · rfl
    · rw [← ha, Function.update_eq_self, ha, ← hb, Function.update_eq_self]

omit [DecidableEq D] in
/-- What `changepassword` does once it has a map: the entry of the user id in
that map is written, whichever domain the map belongs to. -/
theorem changepassword_eq {m : UserSchemaMgr D} {own addr : Addr}
    {uids : UserIdToPasswordMap D} (password : Bytes)
    (h1 : m.domainIdToUserIds m.domainid = some own)
    (h2 : m.userIdToPassword = some addr) (h3 : m.maps addr = some uids) :
    m.changepassword sha512 password =
      match uids m.userid with
      | none => m.usmReply false
      | some pwd => (setMap m addr (Function.update uids m.userid
          (some { pwd with digest := sha512 password }))).usmReply true := by
  cases h4 : uids m.userid with
  | none => simp [UserSchemaMgr.changepassword, h1, h2, h3, h4]
  | some pwd => simp [UserSchemaMgr.changepassword, setMap, h1, h2, h3, h4]

omit [DecidableEq D] in
theorem changepassword_managed {m m' : UserSchemaMgr D} {reply : UserReply}
    (hm : Managed m) (password : Bytes)
    (h : m.changepassword sha512 password = some (m', reply)) :
    Managed m' := by
  cases h1 : m.domainIdToUserIds m.domainid with
  | none =>
      rw [UserSchemaMgr.changepassword, h1] at h
      injection h with h
      injection h with h _
      exact h ▸ hm
  | some own =>
  cases h2 : m.userIdToPassword with
  | none => simp [UserSchemaMgr.changepassword, h1, h2] at h
  | some addr =>
  cases h3 : m.maps addr with
  | none => simp [UserSchemaMgr.changepassword, h1, h2, h3] at h
  | some uids =>
  rw [changepassword_eq password h1 h2 h3] at h
  obtain ⟨did, hdid⟩ := hm.owned h3
  split at h
  · injection h with h
    injection h with h _
    exact h ▸ hm
  · injection h with h
    injection h with h _
    exact h ▸ hm.setMap hdid _

variable (sha512) in
/-- The answer of the specification, in terms of what it says of the user. -/
theorem step_changepassword (a : Accounts D) (did uid : Int)
    (password : Bytes) :
    (a.digest (did, uid) = none ∧
        a.step sha512 (.changepassword did uid password) = (a, false)) ∨
      (∃ x, a.digest (did, uid) = some x ∧
        a.step sha512 (.changepassword did uid password) =
          (a.setDigest did uid (sha512 password), true)) := by
  rw [Accounts.step]
  cases h : a.digest (did, uid) with
  | none => exact .inl ⟨rfl, by simp⟩
  | some x => exact .inr ⟨x, rfl, by simp⟩

variable (sha512) in
/-- `changepassword` is right exactly under the condition. -/
theorem changepassword_iff {m : UserSchemaMgr D} (hm : Managed m)
    (password : Bytes) :
    (∃ m' reply, m.changepassword sha512 password = some (m', reply) ∧
        (accounts m', reply.ok) = (accounts m).step sha512
          (.changepassword m.domainid m.userid password)) ↔
      MembersRight sha512 m (.changepassword m.domainid m.userid password) := by
  have hspec := step_changepassword sha512 (accounts m)
    m.domainid m.userid password
  rw [MembersRight]
  cases h1 : m.domainIdToUserIds m.domainid with
  | none =>
      have hx : (accounts m).digest (m.domainid, m.userid) = none := by
        simp [accounts, UserSchemaMgr.userIds, h1]
      rcases hspec with ⟨_, hstep⟩ | ⟨x, hsome, _⟩
      · rw [hstep]
        refine iff_of_true ⟨m, ⟨false, m.domainid, m.userid⟩, ?_, rfl⟩ (by simp)
        rw [UserSchemaMgr.changepassword, h1]
        rfl
      · exact absurd (hx.symm.trans hsome) (by simp)
  | some own =>
  cases h2 : m.userIdToPassword with
  | none => simp [UserSchemaMgr.changepassword, h1, h2]
  | some addr =>
  cases h3 : m.maps addr with
  | none => simp [UserSchemaMgr.changepassword, h1, h2, h3]
  | some uids =>
  obtain ⟨did, hdid⟩ := hm.owned h3
  have hsame : (did, m.userid) = (m.domainid, m.userid) ↔ addr = own := by
    constructor
    · intro h
      injection h with h _
      exact Option.some.inj (hdid.symm.trans (h ▸ h1))
    · intro h
      rw [hm.apart hdid (h ▸ h1)]
  have hthere : (accounts m).digest (did, m.userid) =
      (uids m.userid).map (·.digest) := by
    show (m.userIds did).bind _ = _
    rw [userIds_eq hdid, h3]
    rfl
  rw [changepassword_eq password h1 h2 h3]
  simp only [Option.some.injEq, forall_eq', h3, ↓existsAndEq, true_and]
  cases h4 : uids m.userid with
  | none =>
      rw [h4, Option.map_none] at hthere
      rw [Option.map_none]
      rcases hspec with ⟨hnone, hstep⟩ | ⟨x, hsome, hstep⟩
      · rw [hstep, hnone]
        exact iff_of_true ⟨m, _, rfl, rfl⟩ (.inr ⟨rfl, by simp⟩)
      · rw [hstep, hsome]
        refine iff_of_false ?_ ?_
        · rintro ⟨m', reply, h, heq⟩
          injection h with h
          injection h with _ h
          rw [← h] at heq
          exact absurd (congrArg Prod.snd heq) (by simp)
        · rintro (h | ⟨h, _⟩)
          · rw [hsame.mpr h, hsome] at hthere
            exact absurd hthere (by simp)
          · exact absurd h (by simp)
  | some pwd =>
      rw [h4, Option.map_some] at hthere
      rw [Option.map_some]
      have hnew := @digest_setMap D m did m.userid _ _ hm hdid h3
        (some { pwd with digest := sha512 password })
      rw [Option.map_some] at hnew
      have hcode : ∀ a : Accounts D × Bool, (∃ m' reply,
          (setMap m addr (Function.update uids m.userid
            (some { pwd with digest := sha512 password }))).usmReply true =
            some (m', reply) ∧ (accounts m', reply.ok) = a) ↔
          ((accounts m).setDigest did m.userid (sha512 password), true) =
            a := by
        intro a
        rw [Accounts.setDigest, ← hnew]
        simp only [UserSchemaMgr.usmReply, Option.some.injEq, Prod.mk.injEq]
        constructor
        · rintro ⟨m', reply, ⟨rfl, rfl⟩, h⟩
          exact h
        · intro h
          exact ⟨_, _, ⟨rfl, rfl⟩, h⟩
      rw [hcode]
      rcases hspec with ⟨hnone, hstep⟩ | ⟨x, hsome, hstep⟩
      · rw [hstep, hnone]
        refine iff_of_false (fun h => absurd (congrArg Prod.snd h) (by simp)) ?_
        rintro (h | ⟨h, _⟩)
        · rw [hsame.mpr h, hnone] at hthere
          exact absurd hthere (by simp)
        · exact absurd h (by simp)
      · rw [hstep, hsome, Prod.mk.injEq, Accounts.setDigest,
          Accounts.setDigest, Accounts.mk.injEq]
        simp only [true_and, and_true, update_eq_update_iff, hsame, hthere,
          hsome, Option.some.injEq, Option.mem_def, forall_eq']
        exact or_congr_right ⟨fun h => ⟨h.1.trans h.2.symm, h.1⟩,
          fun h => ⟨h.2, h.1 ▸ h.2⟩⟩

/-! ## Managing domains and users -/

/-- The request succeeds or fails as specified, and keeps the invariant. -/
def Performs (result : Option (UserSchemaMgr D × UserReply))
    (spec : Accounts D × Bool) : Prop :=
  ∃ m' reply, result = some (m', reply) ∧ Managed m' ∧
    (accounts m', reply.ok) = spec

section

omit [DecidableEq D]

variable {m : UserSchemaMgr D}

theorem performs_fail (hm : Managed m) {spec : Accounts D × Bool}
    (h : spec = (accounts m, false)) : Performs (m.usmReply false) spec :=
  ⟨m, _, rfl, hm, h.symm⟩

theorem admin_eq_false {domainid userid : Int}
    (h : domainid ≠ 1 ∨ userid ≠ 1) :
    Accounts.admin domainid userid = false := by
  rw [Accounts.admin]
  rcases h with h | h <;> simp [h]

theorem admin_eq_true {domainid userid : Int}
    (h : ¬ (domainid ≠ 1 ∨ userid ≠ 1)) :
    Accounts.admin domainid userid = true := by
  push Not at h
  rw [Accounts.admin, h.1, h.2]
  rfl

/-- A new domain gets a map of its own. -/
theorem Managed.addDomain (hm : Managed m) {domainname : Bytes}
    {m' : UserSchemaMgr D} {did : Int} (hdid : did = m.nextdomainid + 1)
    (hn : m'.domainNameToDomainId =
      Function.update m.domainNameToDomainId domainname (some did))
    (hnames : m'.domainIdToUserNames =
      Function.update m.domainIdToUserNames did (some fun _ => none))
    (hids : m'.domainIdToUserIds =
      Function.update m.domainIdToUserIds did (some m.nextAddr))
    (hmaps : m'.maps = Function.update m.maps m.nextAddr (some fun _ => none))
    (haddr : m'.nextAddr = m.nextAddr + 1)
    (hnext : m'.domainIdToNextUserId =
      Function.update m.domainIdToNextUserId did (some 0))
    (hlast : m'.nextdomainid = did) :
    Managed m' := by
  have hold : ∀ {n did'}, m.domainNameToDomainId n = some did' →
      did' ≠ did := by
    intro n did' h heq
    have := hm.bound h
    omega
  have hname : ∀ {n did'}, m'.domainNameToDomainId n = some did' →
      did' = did ∧ n = domainname ∨ m.domainNameToDomainId n = some did' := by
    intro n did' h
    rw [hn] at h
    by_cases heq : n = domainname
    · rw [heq, Function.update_self] at h
      injection h with h
      exact .inl ⟨h.symm, heq⟩
    · rw [Function.update_of_ne heq] at h
      exact .inr h
  have hid : ∀ {did' addr}, m'.domainIdToUserIds did' = some addr →
      did' = did ∧ addr = m.nextAddr ∨
        did' ≠ did ∧ m.domainIdToUserIds did' = some addr := by
    intro did' addr h
    rw [hids] at h
    by_cases heq : did' = did
    · rw [heq, Function.update_self] at h
      injection h with h
      exact .inl ⟨heq, h.symm⟩
    · rw [Function.update_of_ne heq] at h
      exact .inr ⟨heq, h⟩
  refine ⟨?_, ?_, ?_, ?_, ?_, ?_, ?_, ?_, ?_⟩
  · intro n did' h
    rcases hname h with ⟨rfl, _⟩ | h
    · rw [hnames, Function.update_self]
      rfl
    · rw [hnames, Function.update_of_ne (hold h)]
      exact hm.names h
  · intro n did' h
    rcases hname h with ⟨rfl, _⟩ | h
    · rw [hids, Function.update_self]
      rfl
    · rw [hids, Function.update_of_ne (hold h)]
      exact hm.ids h
  · intro n did' h
    rcases hname h with ⟨rfl, _⟩ | h
    · rw [hnext, Function.update_self]
      rfl
    · rw [hnext, Function.update_of_ne (hold h)]
      exact hm.next h
  · intro n did' h
    rw [hlast]
    rcases hname h with ⟨rfl, _⟩ | h
    · exact le_refl _
    · have := hm.bound h
      omega
  · intro n n' did' h h'
    rcases hname h with ⟨heq, h1⟩ | h1 <;>
      rcases hname h' with ⟨heq', h2⟩ | h2
    · rw [h1, h2]
    · exact absurd heq (hold h2)
    · exact absurd heq' (hold h1)
    · exact hm.inj h1 h2
  · intro did' addr h
    rw [hmaps]
    by_cases heq : addr = m.nextAddr
    · exact ⟨_, by rw [heq, Function.update_self]⟩
    · rw [Function.update_of_ne heq]
      rcases hid h with ⟨_, h1⟩ | ⟨_, h1⟩
      · exact absurd h1 heq
      · exact hm.live h1
  · intro did' addr h
    rw [haddr, hlast]
    rcases hid h with ⟨heq, h1⟩ | ⟨_, h1⟩
    · exact ⟨heq.le, h1 ▸ Nat.lt_succ_self _⟩
    · obtain ⟨hle, hlt⟩ := hm.fresh h1
      exact ⟨by omega, Nat.lt_succ_of_lt hlt⟩
  · intro did₁ did₂ addr h h'
    rcases hid h with ⟨heq, h1⟩ | ⟨_, h1⟩ <;>
      rcases hid h' with ⟨heq', h2⟩ | ⟨_, h2⟩
    · rw [heq, heq']
    · exact absurd (hm.fresh h2).2 (h1 ▸ Nat.lt_irrefl _)
    · exact absurd (hm.fresh h1).2 (h2 ▸ Nat.lt_irrefl _)
    · exact hm.apart h1 h2
  · intro addr uids h
    rw [hmaps] at h
    by_cases heq : addr = m.nextAddr
    · exact ⟨did, by rw [hids, Function.update_self, heq]⟩
    · rw [Function.update_of_ne heq] at h
      obtain ⟨did', h1⟩ := hm.owned h
      have hne : did' ≠ did := by
        have := (hm.fresh h1).1
        omega
      exact ⟨did', by rw [hids, Function.update_of_ne hne, h1]⟩

/-- A domain goes with its map. -/
theorem Managed.removeDomain (hm : Managed m) {domainname : Bytes}
    {m' : UserSchemaMgr D} {did : Int} {addr : Addr}
    (hdid : m.domainNameToDomainId domainname = some did)
    (hown : m.domainIdToUserIds did = some addr)
    (hn : m'.domainNameToDomainId =
      Function.update m.domainNameToDomainId domainname none)
    (hnames : m'.domainIdToUserNames =
      Function.update m.domainIdToUserNames did none)
    (hids : m'.domainIdToUserIds =
      Function.update m.domainIdToUserIds did none)
    (hmaps : m'.maps = Function.update m.maps addr none)
    (haddr : m'.nextAddr = m.nextAddr)
    (hnext : m'.domainIdToNextUserId =
      Function.update m.domainIdToNextUserId did none)
    (hlast : m'.nextdomainid = m.nextdomainid) :
    Managed m' := by
  have hname : ∀ {n did'}, m'.domainNameToDomainId n = some did' →
      did' ≠ did ∧ m.domainNameToDomainId n = some did' := by
    intro n did' h
    rw [hn] at h
    by_cases heq : n = domainname
    · rw [heq, Function.update_self] at h
      exact absurd h (by simp)
    · rw [Function.update_of_ne heq] at h
      exact ⟨fun hd => heq (hm.inj h (hd ▸ hdid)), h⟩
  have hid : ∀ {did' addr'}, m'.domainIdToUserIds did' = some addr' →
      addr' ≠ addr ∧ m.domainIdToUserIds did' = some addr' := by
    intro did' addr' h
    rw [hids] at h
    by_cases heq : did' = did
    · rw [heq, Function.update_self] at h
      exact absurd h (by simp)
    · rw [Function.update_of_ne heq] at h
      exact ⟨fun ha => heq (hm.apart (ha ▸ h) hown), h⟩
  refine ⟨?_, ?_, ?_, ?_, ?_, ?_, ?_, ?_, ?_⟩
  · intro n did' h
    obtain ⟨hne, h⟩ := hname h
    rw [hnames, Function.update_of_ne hne]
    exact hm.names h
  · intro n did' h
    obtain ⟨hne, h⟩ := hname h
    rw [hids, Function.update_of_ne hne]
    exact hm.ids h
  · intro n did' h
    obtain ⟨hne, h⟩ := hname h
    rw [hnext, Function.update_of_ne hne]
    exact hm.next h
  · intro n did' h
    rw [hlast]
    exact hm.bound (hname h).2
  · intro n n' did' h h'
    exact hm.inj (hname h).2 (hname h').2
  · intro did' addr' h
    obtain ⟨hne, h⟩ := hid h
    rw [hmaps, Function.update_of_ne hne]
    exact hm.live h
  · intro did' addr' h
    rw [haddr, hlast]
    exact hm.fresh (hid h).2
  · intro did₁ did₂ addr' h h'
    exact hm.apart (hid h).2 (hid h').2
  · intro addr' uids h
    rw [hmaps] at h
    by_cases heq : addr' = addr
    · rw [heq, Function.update_self] at h
      exact absurd h (by simp)
    · rw [Function.update_of_ne heq] at h
      obtain ⟨did', h1⟩ := hm.owned h
      have hne : did' ≠ did := by
        rintro rfl
        exact heq (Option.some.inj (h1.symm.trans hown))
      exact ⟨did', by rw [hids, Function.update_of_ne hne, h1]⟩

end

omit [DecidableEq D] in
/-- The table without the users of a domain. -/
theorem accounts_clear {m m' : UserSchemaMgr D} {did : Int}
    (hnames : ∀ did', did' ≠ did →
      m'.domainIdToUserNames did' = m.domainIdToUserNames did')
    (hids : ∀ did', did' ≠ did → m'.userIds did' = m.userIds did')
    (hnext : ∀ did', did' ≠ did →
      m'.domainIdToNextUserId did' = m.domainIdToNextUserId did')
    (hnone : ∀ name, (m'.domainIdToUserNames did).bind (· name) = none)
    (hempty : ∀ uid, (m'.userIds did).bind (· uid) = none)
    (hzero : (m'.domainIdToNextUserId did).getD 0 = 0) :
    accounts m' =
      { (accounts m).clear did with
        domains := m'.domainNameToDomainId, lastDomain := m'.nextdomainid } := by
  refine Accounts.ext rfl (funext fun key => ?_) (funext fun key => ?_) rfl
    (funext fun did' => ?_)
  · show (m'.domainIdToUserNames key.1).bind _ = if key.1 = did then none
      else (m.domainIdToUserNames key.1).bind _
    by_cases h : key.1 = did
    · rw [if_pos h, h, hnone]
    · rw [if_neg h, hnames _ h]
  · show (m'.userIds key.1).bind _ = if key.1 = did then none
      else (m.userIds key.1).bind _
    by_cases h : key.1 = did
    · rw [if_pos h, h]
      have := hempty key.2
      cases h1 : m'.userIds did with
      | none => rfl
      | some uids =>
          rw [h1, Option.bind_some] at this
          rw [Option.bind_some, this]
          rfl
    · rw [if_neg h, hids _ h]
  · show (m'.domainIdToNextUserId did').getD 0 = Function.update
      (fun did => (m.domainIdToNextUserId did).getD 0) did 0 did'
    by_cases h : did' = did
    · rw [h, Function.update_self, hzero]
    · rw [Function.update_of_ne h, hnext _ h]

theorem createdomain_performs {m : UserSchemaMgr D} (hm : Managed m)
    (domainname : Bytes) :
    Performs (m.createdomain domainname) ((accounts m).step sha512
      (.createdomain m.domainid m.userid domainname)) := by
  rw [UserSchemaMgr.createdomain, Accounts.step]
  split
  · next h => exact performs_fail hm (by rw [admin_eq_false h]; rfl)
  · next h =>
  rw [admin_eq_true h, Bool.true_and]
  change Performs _ (if (m.domainNameToDomainId domainname).isNone then _
    else _)
  cases h1 : m.domainNameToDomainId domainname with
  | some did => exact performs_fail hm rfl
  | none =>
      refine ⟨_, _, rfl, hm.addDomain rfl rfl rfl rfl rfl rfl rfl rfl, ?_⟩
      refine Prod.ext (@accounts_clear D m _ (m.nextdomainid + 1)
        ?_ ?_ ?_ ?_ ?_ ?_) rfl
      · exact fun did' hne => Function.update_of_ne hne _ _
      · intro did' hne
        show (Function.update m.domainIdToUserIds (m.nextdomainid + 1)
          (some m.nextAddr) did').bind (Function.update m.maps m.nextAddr _) =
          (m.domainIdToUserIds did').bind m.maps
        rw [Function.update_of_ne hne]
        cases h2 : m.domainIdToUserIds did' with
        | none => rfl
        | some addr =>
            rw [Option.bind_some, Option.bind_some, Function.update_of_ne]
            exact (hm.fresh h2).2.ne
      · exact fun did' hne => Function.update_of_ne hne _ _
      · intro name
        show (Function.update m.domainIdToUserNames (m.nextdomainid + 1) _
          _).bind _ = _
        rw [Function.update_self]
        rfl
      · intro uid
        show ((Function.update m.domainIdToUserIds (m.nextdomainid + 1)
          (some m.nextAddr) _).bind (Function.update m.maps m.nextAddr _)).bind
          _ = _
        rw [Function.update_self, Option.bind_some, Function.update_self]
        rfl
      · show (Function.update m.domainIdToNextUserId (m.nextdomainid + 1)
          (some 0) _).getD 0 = 0
        rw [Function.update_self]
        rfl

theorem deletedomain_performs {m : UserSchemaMgr D} (hm : Managed m)
    (domainname : Bytes) :
    Performs (m.deletedomain domainname) ((accounts m).step sha512
      (.deletedomain m.domainid m.userid domainname)) := by
  have hdomains : (accounts m).domains domainname =
      m.domainNameToDomainId domainname := rfl
  rw [UserSchemaMgr.deletedomain, Accounts.step, hdomains]
  cases h1 : m.domainNameToDomainId domainname with
  | none =>
      split
      · exact performs_fail hm rfl
      · exact performs_fail hm rfl
  | some did =>
  dsimp only
  split
  · next h => exact performs_fail hm (by rw [admin_eq_false h]; rfl)
  · next h =>
  rw [admin_eq_true h, if_pos rfl]
  obtain ⟨addr, h2⟩ := Option.isSome_iff_exists.mp (hm.ids h1)
  rw [h2]
  refine ⟨_, _, rfl, hm.removeDomain h1 h2 rfl rfl rfl rfl rfl rfl rfl, ?_⟩
  refine Prod.ext (accounts_clear ?_ ?_ ?_ ?_ ?_ ?_) rfl
  · exact fun did' hne => Function.update_of_ne hne _ _
  · intro did' hne
    show (Function.update m.domainIdToUserIds did none did').bind
      (Function.update m.maps addr none) = (m.domainIdToUserIds did').bind m.maps
    rw [Function.update_of_ne hne]
    cases h3 : m.domainIdToUserIds did' with
    | none => rfl
    | some addr' =>
        have hne' : addr' ≠ addr := fun heq => hne (hm.apart (heq ▸ h3) h2)
        rw [Option.bind_some, Option.bind_some, Function.update_of_ne hne']
  · exact fun did' hne => Function.update_of_ne hne _ _
  · intro name
    show (Function.update m.domainIdToUserNames did none did).bind _ = _
    rw [Function.update_self]
    rfl
  · intro uid
    show ((Function.update m.domainIdToUserIds did none did).bind _).bind _ = _
    rw [Function.update_self]
    rfl
  · show (Function.update m.domainIdToNextUserId did none did).getD 0 = 0
    rw [Function.update_self]
    rfl

omit [DecidableEq D] in
/-- Writing one name of a domain writes one entry of the table. -/
theorem users_setNames {m : UserSchemaMgr D} {did : Int} {username : Bytes}
    {names : UserNameToUserIdMap} (h : m.domainIdToUserNames did = some names)
    (x : Option Int) (key : Int × Bytes) :
    (Function.update m.domainIdToUserNames did
        (some (Function.update names username x)) key.1).bind (· key.2) =
      Function.update (accounts m).users (did, username) x key := by
  obtain ⟨did', name⟩ := key
  by_cases hd : did' = did
  · subst hd
    rw [Function.update_self, Option.bind_some]
    by_cases hn : name = username
    · rw [hn, Function.update_self, Function.update_self]
    · rw [Function.update_of_ne hn, Function.update_of_ne (by simp [hn])]
      show _ = (m.domainIdToUserNames did').bind _
      rw [h]
      rfl
  · rw [Function.update_of_ne hd, Function.update_of_ne (by simp [hd])]
    rfl

theorem createuser_performs {m : UserSchemaMgr D} (hm : Managed m)
    (domainname username password : Bytes) :
    Performs (m.createuser sha512 domainname username password)
      ((accounts m).step sha512
        (.createuser m.domainid m.userid domainname username password)) := by
  have hdomains : (accounts m).domains domainname =
      m.domainNameToDomainId domainname := rfl
  rw [UserSchemaMgr.createuser, Accounts.step, hdomains]
  cases h1 : m.domainNameToDomainId domainname with
  | none =>
      split
      · exact performs_fail hm rfl
      · exact performs_fail hm rfl
  | some did =>
  dsimp only
  split
  · next h => exact performs_fail hm (by rw [admin_eq_false h]; rfl)
  · next h =>
  rw [admin_eq_true h, Bool.true_and]
  change Performs _
    (if ((m.domainIdToUserNames did).bind (· username)).isNone then _ else _)
  obtain ⟨names, h2⟩ := Option.isSome_iff_exists.mp (hm.names h1)
  obtain ⟨n, h3⟩ := Option.isSome_iff_exists.mp (hm.next h1)
  obtain ⟨addr, h4⟩ := Option.isSome_iff_exists.mp (hm.ids h1)
  obtain ⟨uids, h5⟩ := hm.live h4
  have hlast : (accounts m).lastUser did = n := by
    show (m.domainIdToNextUserId did).getD 0 = n
    rw [h3]
    rfl
  rw [h2, hlast]
  dsimp only
  rw [Option.bind_some]
  cases h6 : names username with
  | some uid => exact performs_fail hm rfl
  | none =>
  simp only [UserSchemaMgr.getnextuserid, h3, h4, h5]
  refine ⟨_, _, rfl, (((hm.setNext did (n + 1)).setNames did
    (Function.update names username (some (n + 1)))).setMap h4 _).members
    _ _ _ _, Prod.ext (Accounts.ext rfl ?_ ?_ rfl ?_) rfl⟩
  · exact funext (users_setNames h2 _)
  · exact digest_setMap hm h4 h5 _
  · funext did'
    show (Function.update m.domainIdToNextUserId did (some (n + 1)) did').getD
      0 = Function.update (accounts m).lastUser did (n + 1) did'
    by_cases hd : did' = did
    · rw [hd, Function.update_self, Function.update_self]
      rfl
    · rw [Function.update_of_ne hd, Function.update_of_ne hd]
      rfl

theorem deleteuser_performs {m : UserSchemaMgr D} (hm : Managed m)
    (domainname username : Bytes) :
    Performs (m.deleteuser domainname username) ((accounts m).step sha512
      (.deleteuser m.domainid m.userid domainname username)) := by
  rw [UserSchemaMgr.deleteuser, Accounts.step]
  cases h1 : m.domainNameToDomainId domainname with
  | none =>
      have huser : (accounts m).user domainname username = none := by
        simp [Accounts.user, accounts, h1]
      rw [huser]
      split
      · exact performs_fail hm rfl
      · exact performs_fail hm rfl
  | some did =>
  obtain ⟨names, h2⟩ := Option.isSome_iff_exists.mp (hm.names h1)
  obtain ⟨addr, h3⟩ := Option.isSome_iff_exists.mp (hm.ids h1)
  obtain ⟨uids, h4⟩ := hm.live h3
  dsimp only
  rw [h2]
  dsimp only
  cases h5 : names username with
  | none =>
      have huser : (accounts m).user domainname username = none := by
        simp [Accounts.user, accounts, h1, h2, h5]
      rw [huser]
      split
      · exact performs_fail hm rfl
      · exact ⟨_, _, rfl, hm.members _ _ _ _, rfl⟩
  | some uid =>
  obtain ⟨huser, _⟩ := accepts_eq sha512 [] h1 h2 h5
  rw [huser]
  split
  · next h => exact performs_fail hm (by rw [admin_eq_false h]; rfl)
  · next h =>
  rw [admin_eq_true h]
  simp only [h3, h4]
  refine ⟨_, _, rfl, ((hm.setNames did
    (Function.update names username none)).setMap h3 _).members _ _ _ _,
    Prod.ext (Accounts.ext rfl ?_ ?_ rfl rfl) rfl⟩
  · exact funext (users_setNames h2 _)
  · exact digest_setMap hm h3 h4 none

/-! ## Runs -/

omit [DecidableEq D] in
theorem update_none_eq_some {K V : Type*} [DecidableEq K] {a b : K} {v w : V}
    (h : Function.update (fun _ => none) a (some v) b = some w) :
    b = a ∧ w = v := by
  by_cases hb : b = a
  · rw [hb, Function.update_self] at h
    injection h with h
    exact ⟨hb, h.symm⟩
  · rw [Function.update_of_ne hb] at h
    exact absurd h (by simp)

/-- A map of maps with one entry is a map of pairs with one entry. -/
theorem bind_update {K L V : Type} [DecidableEq K] [DecidableEq L] (k : K)
    (l : L) (v : V) (key : K × L) :
    (Function.update (fun _ => none) k
        (some (Function.update (fun _ => none) l (some v))) key.1).bind
          (· key.2) =
      Function.update (fun _ => none) (k, l) (some v) key := by
  obtain ⟨k', l'⟩ := key
  by_cases hk : k' = k
  · subst hk
    rw [Function.update_self, Option.bind_some]
    by_cases hl : l' = l
    · rw [hl, Function.update_self, Function.update_self]
    · rw [Function.update_of_ne hl, Function.update_of_ne (by simp [hl])]
  · rw [Function.update_of_ne hk, Function.update_of_ne (by simp [hk])]
    rfl

omit [DecidableEq D] in
theorem userIds_new (argstring : Bytes) (did : Int) :
    (UserSchemaMgr.new sha512 argstring).userIds did =
      Function.update (fun _ => none) 1 (some (Function.update (fun _ => none)
        1 (some ⟨argstring, sha512 argstring⟩))) did := by
  show (Function.update (fun _ => none) 1 (some 0) did).bind
    (Function.update _ 0 _) = _
  by_cases h : did = 1
  · rw [h, Function.update_self, Function.update_self, Option.bind_some,
      Function.update_self]
  · rw [Function.update_of_ne h, Function.update_of_ne h]
    rfl

omit [DecidableEq D] in
theorem accounts_new (argstring : Bytes) :
    accounts (UserSchemaMgr.new sha512 argstring) =
      Accounts.new sha512 argstring := by
  refine Accounts.ext rfl (funext fun key => bind_update _ _ _ key)
    (funext fun key => ?_) rfl (funext fun did => ?_)
  · show ((UserSchemaMgr.new sha512 argstring).userIds key.1).bind _ =
      Function.update (fun _ => none) (1, 1) (some (sha512 argstring)) key
    rw [userIds_new, ← bind_update]
    by_cases h : key.1 = 1
    · rw [h, Function.update_self, Function.update_self, Option.bind_some,
        Option.bind_some]
      by_cases h' : key.2 = 1
      · rw [h', Function.update_self, Function.update_self]
        rfl
      · rw [Function.update_of_ne h', Function.update_of_ne h']
        rfl
    · rw [Function.update_of_ne h, Function.update_of_ne h]
      rfl
  · show (Function.update (fun _ => none) 1 (some 1) did).getD 0 =
      Function.update (fun _ => 0) 1 1 did
    by_cases h : did = 1
    · rw [h, Function.update_self, Function.update_self]
      rfl
    · rw [Function.update_of_ne h, Function.update_of_ne h]
      rfl

omit [DecidableEq D] in
theorem managed_new (argstring : Bytes) :
    Managed (UserSchemaMgr.new sha512 argstring) where
  names h := by
    obtain ⟨_, rfl⟩ := update_none_eq_some h
    rfl
  ids h := by
    obtain ⟨_, rfl⟩ := update_none_eq_some h
    rfl
  next h := by
    obtain ⟨_, rfl⟩ := update_none_eq_some h
    rfl
  bound h := (update_none_eq_some h).2.le
  inj h h' := (update_none_eq_some h).1.trans (update_none_eq_some h').1.symm
  live h := by
    obtain ⟨_, rfl⟩ := update_none_eq_some h
    exact ⟨_, rfl⟩
  fresh h := by
    obtain ⟨rfl, rfl⟩ := update_none_eq_some h
    exact ⟨le_refl _, Nat.zero_lt_one⟩
  apart h h' := (update_none_eq_some h).1.trans (update_none_eq_some h').1.symm
  owned h := by
    obtain ⟨rfl, _⟩ := update_none_eq_some h
    exact ⟨1, rfl⟩

variable (sha512) in
/-- Each request is judged in the state it is made in. -/
theorem processRequest_performs {m : UserSchemaMgr D} (hm : Managed m)
    (req : UserRequest) :
    Performs (m.processRequest sha512 req) ((accounts m).step sha512 req) ↔
      MembersRight sha512 m req := by
  cases req with
  | login domainid userid domainname username password =>
      refine iff_of_true ?_ trivial
      obtain ⟨m', reply, h1, h2, h3, h4⟩ :=
        login_spec sha512 (hm.members m.userIdToPassword
          m.pwdStruct domainid userid) domainname username password
      exact ⟨m', reply, h1, h2, Prod.ext h3 h4⟩
  | changepassword domainid userid password =>
      have hm' := hm.members m.userIdToPassword m.pwdStruct domainid userid
      refine Iff.trans ?_ (changepassword_iff sha512 hm' password)
      constructor
      · rintro ⟨m', reply, h1, _, h3⟩
        exact ⟨m', reply, h1, h3⟩
      · rintro ⟨m', reply, h1, h3⟩
        exact ⟨m', reply, h1, changepassword_managed hm' password h1, h3⟩
  | createdomain domainid userid domainname =>
      exact iff_of_true (createdomain_performs
        (hm.members m.userIdToPassword m.pwdStruct domainid userid) domainname)
        trivial
  | createuser domainid userid domainname username password =>
      exact iff_of_true (createuser_performs
        (hm.members m.userIdToPassword m.pwdStruct domainid userid) domainname
        username password) trivial
  | deleteuser domainid userid domainname username =>
      exact iff_of_true (deleteuser_performs
        (hm.members m.userIdToPassword m.pwdStruct domainid userid) domainname
        username) trivial
  | deletedomain domainid userid domainname =>
      exact iff_of_true (deletedomain_performs
        (hm.members m.userIdToPassword m.pwdStruct domainid userid) domainname)
        trivial
  | operationLogin username domainname password =>
      obtain ⟨reply, h1, h2⟩ := operationLogin_spec sha512 hm
        username domainname password
      rw [← h2, UserSchemaMgr.processRequest, h1]
      constructor
      · rintro ⟨m', reply', h3, _, h4⟩
        injection h3 with h3
        injection h3 with _ h3
        rw [h3]
        exact congrArg Prod.snd h4
      · intro h
        exact ⟨m, reply, rfl, hm, Prod.ext rfl h⟩

omit [DecidableEq D] in
theorem Performs.managed {result : Option (UserSchemaMgr D × UserReply)}
    {spec : Accounts D × Bool} {m' : UserSchemaMgr D} {reply : UserReply}
    (hp : Performs result spec) (h : result = some (m', reply)) :
    Managed m' := by
  obtain ⟨m₁, _, h1, h2, _⟩ := hp
  rw [h] at h1
  injection h1 with h1
  injection h1 with h1 _
  exact h1 ▸ h2

/-- The invariant does not depend on the condition. -/
theorem processRequest_managed {m m' : UserSchemaMgr D} {reply : UserReply}
    {req : UserRequest} (hm : Managed m)
    (h : m.processRequest sha512 req = some (m', reply)) : Managed m' := by
  have hp := processRequest_performs sha512 hm req
  cases req with
  | changepassword domainid userid password =>
      exact changepassword_managed (hm.members m.userIdToPassword m.pwdStruct
        domainid userid) password h
  | operationLogin username domainname password =>
      obtain ⟨_, _, heq⟩ := Option.map_eq_some_iff.mp h
      injection heq with heq _
      exact heq ▸ hm
  | login | createdomain | createuser | deleteuser | deletedomain =>
      exact (hp.mpr trivial).managed h

/-- The user manager and the table side by side: after every request the
maps say what the table says, and every reply is the table's. -/
def Faithful (sha512 : Bytes → D) :
    UserSchemaMgr D → Accounts D → List UserRequest → Prop
  | m, a, [] => accounts m = a
  | m, a, req :: reqs => accounts m = a ∧
      ∃ m' reply, m.processRequest sha512 req = some (m', reply) ∧
        reply.ok = (a.step sha512 req).2 ∧
        Faithful sha512 m' (a.step sha512 req).1 reqs

/-- A request as a step. -/
def request (sha512 : Bytes → D) (m : UserSchemaMgr D) (req : UserRequest) :
    Option (UserSchemaMgr D) :=
  (m.processRequest sha512 req).map Prod.fst

theorem Faithful.accounts_eq {m : UserSchemaMgr D} {a : Accounts D}
    {reqs : List UserRequest} (h : Faithful sha512 m a reqs) :
    accounts m = a := by
  cases reqs with
  | nil => exact h
  | cons req reqs => exact h.1

theorem faithful_iff {reqs : List UserRequest} : ∀ {m : UserSchemaMgr D},
    Managed m → (Faithful sha512 m (accounts m) reqs ↔
      AllCalls (request sha512) (MembersRight sha512) m reqs) := by
  induction reqs with
  | nil => exact fun _ => iff_of_true rfl trivial
  | cons req reqs ih =>
      intro m hm
      rw [AllCalls, ← processRequest_performs sha512 hm req]
      constructor
      · rintro ⟨_, m', reply, h1, h2, h3⟩
        have hm' := processRequest_managed hm h1
        have hacc := h3.accounts_eq
        rw [← hacc] at h3
        refine ⟨⟨m', reply, h1, hm', Prod.ext hacc h2⟩, fun m₁ h4 => ?_⟩
        rw [request, h1, Option.map_some] at h4
        injection h4 with h4
        exact h4 ▸ (ih hm').mp h3
      · rintro ⟨⟨m', reply, h1, h2, h3⟩, hrest⟩
        refine ⟨rfl, m', reply, h1, congrArg Prod.snd h3, ?_⟩
        rw [← congrArg Prod.fst h3]
        refine (ih h2).mpr (hrest m' ?_)
        rw [request, h1, Option.map_some]

/-- From the start, for every sequence of requests: logins are accepted and
passwords changed as they should be exactly if every request meets its
condition. -/
theorem faithful_iff_meets (argstring : Bytes) (reqs : List UserRequest) :
    Faithful sha512 (UserSchemaMgr.new sha512 argstring)
        (Accounts.new sha512 argstring) reqs ↔
      AllCalls (request sha512) (MembersRight sha512)
        (UserSchemaMgr.new sha512 argstring) reqs := by
  rw [← accounts_new]
  exact faithful_iff (managed_new argstring)

/-- A user of `_global` is created with the password `2`. -/
def createOther : UserRequest :=
  .createuser 1 1 UserSchemaMgr.globalname [117] [2]

/-- Then the administrator, whose password is `1`, logs in through an
operation with the password `2`. -/
def loginWithOther : UserRequest :=
  .operationLogin UserSchemaMgr.adminname UserSchemaMgr.globalname [2]

/-- The login is accepted. -/
theorem loginWithOther_not_faithful :
    ¬ Faithful (D := Bytes) id (UserSchemaMgr.new id [1])
      (Accounts.new id [1]) [createOther, loginWithOther] := by
  rintro ⟨_, m', reply, h1, _, _, m'', reply', h2, h3, _⟩
  have hcode : (((UserSchemaMgr.new id [1] : UserSchemaMgr Bytes).processRequest
      id createOther).bind fun p => (p.1.processRequest id loginWithOther).map
        (·.2.ok)) = some true := by decide
  have hspec : ((Accounts.step (D := Bytes) id (Accounts.step id
      (Accounts.new id [1]) createOther).1) loginWithOther).2 = false := by
    decide
  rw [h1, Option.bind_some, h2, Option.map_some, h3, hspec] at hcode
  exact absurd hcode (by simp)

end Infinisql.Proofs
