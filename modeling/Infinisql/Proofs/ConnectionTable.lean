import Infinisql.Spec.ConnectionTable

/-!
# When the inbound gateway keeps its connections

`removefds` makes an array that is as much shorter as descriptors are removed,
and fills it from that many of the first entries of the old one. So it keeps
an entry only if it stands among these, and has one to fill each place with
only if none of these is removed: the array is right exactly if the entries
that are removed are the last ones. The rest of the round is entry by entry. A
connection that is read touches its own entry of `pendingReads` and no other;
the one thing that goes wrong there is an entry that was left when a
connection hung up, and is found by the next one under the same descriptor.
-/

namespace Infinisql.Inbound

open Infinisql.Lib

/-! ## Arrays -/

theorem setEntry_eq {newfds : List (Option Fd)} {n : ℕ} {entry : Option Fd}
    (h : n < newfds.length) : setEntry newfds n entry = .ok (newfds.set n entry) :=
  if_pos h

/-- An entry written behind those that are there. -/
theorem setEntry_append (front : List (Option Fd)) (old entry : Option Fd)
    (back : List (Option Fd)) :
    setEntry (front ++ old :: back) front.length entry =
      .ok ((front ++ [entry]) ++ back) := by
  rw [setEntry_eq (by simp), List.set_append_right _ _ (le_refl _), Nat.sub_self,
    List.set_cons_zero, List.append_assoc]
  rfl

theorem copyEntries_eq {fds : List (Option Fd)} : ∀ {n k : ℕ}, n ≤ fds.length →
    n ≤ k → copyEntries fds n (List.replicate k none) =
      .ok (fds.take n ++ List.replicate (k - n) none) := by
  intro n
  induction n with
  | zero => exact fun _ _ => rfl
  | succ n ih =>
      intro k hn hk
      have hlen : (fds.take n).length = n := List.length_take_of_le (by omega)
      rw [copyEntries, ih (by omega) (by omega), show k - n = k - (n + 1) + 1 by omega,
        List.replicate_succ, entryAt, List.getElem?_eq_getElem (by omega)]
      show setEntry _ n fds[n] = _
      have hset := setEntry_append (fds.take n) none fds[n]
        (List.replicate (k - (n + 1)) none)
      rw [hlen] at hset
      rw [hset, List.take_concat_get' fds n (by omega)]

theorem keepEntries_eq {entries : List Fd} {fdremoveset : OrdSet Fd} :
    ∀ {n k : ℕ}, n ≤ entries.length → n ≤ k →
    keepEntries (entries.map some) fdremoveset n (List.replicate k none) =
      .ok ((((entries.take n).filter fun fd => fd ∉ fdremoveset).map some) ++
        List.replicate (k - ((entries.take n).filter
          fun fd => fd ∉ fdremoveset).length) none,
        ((entries.take n).filter fun fd => fd ∉ fdremoveset).length) := by
  intro n
  induction n with
  | zero => exact fun _ _ => rfl
  | succ n ih =>
      intro k hn hk
      have hget : (entries.map some)[n]? = some (some entries[n]) := by
        rw [List.getElem?_map, List.getElem?_eq_getElem (by omega)]
        rfl
      have hle := List.length_filter_le (fun fd => decide (fd ∉ fdremoveset))
        (entries.take n)
      rw [List.length_take_of_le (by omega)] at hle
      rw [keepEntries, ih (by omega) (by omega), fdAt, entryAt, hget,
        ← List.take_concat_get' entries n (by omega), List.filter_append]
      generalize (entries.take n).filter (fun fd => decide (fd ∉ fdremoveset)) =
        kept at hle ⊢
      show (if entries[n] ∈ fdremoveset then _ else _) = _
      by_cases hmem : entries[n] ∈ fdremoveset
      · rw [if_pos hmem, List.filter_cons_of_neg (by simpa using hmem),
          List.filter_nil, List.append_nil]
      · rw [if_neg hmem, List.filter_cons_of_pos (by simpa using hmem),
          List.filter_nil, List.length_append, List.length_singleton,
          show k - kept.length = k - (kept.length + 1) + 1 by omega,
          List.replicate_succ]
        have hset := setEntry_append (kept.map some) none (some entries[n])
          (List.replicate (k - (kept.length + 1)) none)
        rw [List.length_map] at hset
        show (setEntry _ _ _).bind _ = _
        rw [hset, List.map_append]
        rfl

theorem addtofds_eq {g : IbGateway} (h : g.nfds = g.fds.length) (newfd : Fd) :
    g.addtofds newfd = .ok { g with
      fds := g.fds ++ [some newfd]
      nfds := g.nfds + 1 } := by
  unfold IbGateway.addtofds
  dsimp only
  rw [Nat.add_sub_cancel, copyEntries_eq (by omega) (by omega), h,
    List.take_length, Nat.add_sub_cancel_left]
  show (setEntry (g.fds ++ [none]) g.fds.length (some newfd)).bind _ = _
  rw [setEntry_append g.fds none (some newfd) [], List.append_nil]
  rfl

/-! ## Removing the last ones -/

theorem length_filter_notMem {entries : List Fd} {removed : OrdSet Fd}
    (hnodup : entries.Nodup) (hmem : ∀ fd ∈ removed, fd ∈ entries) :
    (entries.filter fun fd => fd ∉ removed).length =
      entries.length - removed.card := by
  have hsplit := List.length_eq_length_filter_add (l := entries)
    fun fd => decide (fd ∈ removed)
  have hperm : (entries.filter fun fd => fd ∈ removed).Perm removed.toList := by
    rw [List.perm_ext_iff_of_nodup (hnodup.filter _) removed.nodup]
    intro fd
    rw [List.mem_filter, decide_eq_true_iff]
    exact ⟨fun h => h.2, fun h => ⟨hmem fd h, h⟩⟩
  have hlen : _ = removed.card := hperm.length_eq
  have hnot : (entries.filter fun fd => !decide (fd ∈ removed)) =
      entries.filter fun fd => fd ∉ removed := by
    congr 1
    funext fd
    rw [decide_not]
  rw [hlen, hnot] at hsplit
  omega

/-- A list is the part before the last so many elements, and these are
removed, exactly if no other element is. -/
theorem filter_take_length {entries : List Fd} {removed : OrdSet Fd}
    (hnodup : entries.Nodup) (hmem : ∀ fd ∈ removed, fd ∈ entries) :
    ((entries.take (entries.length - removed.card)).filter
        fun fd => fd ∉ removed).length = entries.length - removed.card ↔
      ∃ j, ∀ (n : ℕ) (fd : Fd), entries[n]? = some fd →
        (fd ∈ removed ↔ j ≤ n) := by
  have hcard : removed.card ≤ entries.length :=
    (removed.nodup.subperm hmem).length_le
  generalize hn : entries.length - removed.card = n
  have htake : (entries.take n).length = n := List.length_take_of_le (by omega)
  have hiff := List.length_filter_eq_length_iff
    (p := fun fd => decide (fd ∉ removed)) (l := entries.take n)
  rw [htake] at hiff
  rw [hiff]
  constructor
  · intro hkept
    have hsub : removed.toList ⊆ entries.drop n := by
      intro fd hfd
      have hin := hmem fd hfd
      rw [← List.take_append_drop n entries] at hin
      rcases List.mem_append.mp hin with hin | hin
      · exact absurd hfd (of_decide_eq_true (hkept fd hin))
      · exact hin
    have hperm := (removed.nodup.subperm hsub).perm_of_length_le (by
      rw [List.length_drop]
      show _ ≤ removed.card
      omega)
    refine ⟨n, fun i fd hget => ?_⟩
    obtain ⟨hi, hget⟩ := List.getElem?_eq_some_iff.mp hget
    constructor
    · intro hfd
      by_contra hlt
      refine of_decide_eq_true (hkept fd ?_) hfd
      exact List.mem_take_iff_getElem.mpr ⟨i, by omega, hget⟩
    · intro hle
      refine hperm.mem_iff.mpr ?_
      refine List.mem_drop_iff_getElem.mpr ⟨i - n, by omega, ?_⟩
      rw [← hget]
      congr 1
      omega
  · intro hlast fd hfd
    obtain ⟨j, hlast⟩ := hlast
    obtain ⟨i, hi, hget⟩ := List.mem_take_iff_getElem.mp hfd
    refine decide_eq_true fun hrem => ?_
    -- all that is behind it is removed with it, and that is too much
    have hj := (hlast i fd (List.getElem?_eq_some_iff.mpr ⟨_, hget⟩)).mp hrem
    have hsub : entries.drop i ⊆ removed.toList := by
      intro x hx
      obtain ⟨k, hk, hx⟩ := List.mem_drop_iff_getElem.mp hx
      exact (hlast (i + k) x (List.getElem?_eq_some_iff.mpr ⟨_, hx⟩)).mpr
        (by omega)
    have hle := ((hnodup.sublist (List.drop_sublist i entries)).subperm
      hsub).length_le
    rw [List.length_drop] at hle
    have hle : _ ≤ removed.card := hle
    omega

/-- What `removefds` leaves has the right length, but not always the right
entries. -/
theorem removefds_eq {g : IbGateway} {entries : List Fd}
    (hfds : g.fds = entries.map some) (hnfds : g.nfds = g.fds.length)
    (hnodup : entries.Nodup) (hmem : ∀ fd ∈ g.fdremoveset, fd ∈ entries) :
    ∃ fds, g.removefds = .ok { g with
        fds := fds
        nfds := entries.length - g.fdremoveset.card
        fdremoveset := OrdSet.empty } ∧
      fds.length = entries.length - g.fdremoveset.card ∧
      (fds = (entries.filter fun fd => fd ∉ g.fdremoveset).map some ↔
        ∃ j, ∀ (n : ℕ) (fd : Fd), entries[n]? = some fd →
          (fd ∈ g.fdremoveset ↔ j ≤ n)) := by
  have hcard : g.fdremoveset.card ≤ entries.length :=
    (g.fdremoveset.nodup.subperm hmem).length_le
  have hlen : g.nfds = entries.length := by
    rw [hnfds, hfds, List.length_map]
  have hall := length_filter_notMem hnodup hmem
  rw [← filter_take_length hnodup hmem]
  by_cases hzero : g.fdremoveset.card = 0
  · have hempty : g.fdremoveset = OrdSet.empty :=
      OrdSet.eq_of_toList (List.length_eq_zero_iff.mp hzero)
    have hnone : ∀ l : List Fd, (l.filter fun fd => fd ∉ g.fdremoveset) = l :=
      fun l => List.filter_eq_self.mpr fun fd _ =>
        decide_eq_true (OrdSet.card_eq_zero.mp hzero fd)
    refine ⟨g.fds, ?_, ?_, ?_⟩
    · unfold IbGateway.removefds
      rw [if_pos hzero, hzero, Nat.sub_zero, ← hlen, ← hempty]
    · rw [hzero, Nat.sub_zero, ← hlen, hnfds]
    · rw [hnone, hnone, hzero, Nat.sub_zero, List.take_length, hfds]
      exact ⟨fun _ => rfl, fun _ => rfl⟩
  · generalize hkept : ((entries.take (entries.length - g.fdremoveset.card)).filter
      fun fd => fd ∉ g.fdremoveset) = kept
    have hle : kept.length ≤ entries.length - g.fdremoveset.card := by
      rw [← hkept]
      exact (List.length_filter_le _ _).trans (List.length_take_le _ _)
    have hpre : kept <+: entries.filter fun fd => fd ∉ g.fdremoveset := by
      rw [← hkept]
      exact (List.take_prefix _ _).filter _
    refine ⟨kept.map some ++ List.replicate
      (entries.length - g.fdremoveset.card - kept.length) none, ?_, ?_, ?_⟩
    · unfold IbGateway.removefds
      rw [if_neg hzero, if_neg (by omega), hlen, hfds]
      dsimp only
      rw [keepEntries_eq (by omega) (le_refl _), hkept]
      rfl
    · rw [List.length_append, List.length_map, List.length_replicate]
      omega
    · constructor
      · intro heq
        by_contra hne
        have hnone : none ∈ (entries.filter fun fd =>
            fd ∉ g.fdremoveset).map some := by
          rw [← heq]
          refine List.mem_append_right _ (List.mem_replicate.mpr ⟨?_, rfl⟩)
          omega
        obtain ⟨fd, _, hfd⟩ := List.mem_map.mp hnone
        cases hfd
      · intro hfull
        rw [hfull, Nat.sub_self, List.replicate_zero, List.append_nil,
          hpre.eq_of_length (hfull.trans hall.symm)]

/-! ## Packages -/

theorem cut_flatten : ∀ {k : ℕ} {buf rest : List Octet}
    {packages : List (List Octet)}, cut k buf = some (packages, rest) →
    packages.flatten ++ rest = buf := by
  intro k
  induction k with
  | zero =>
      intro buf rest packages h
      injection h with h
      injection h with hp hr
      rw [← hp, ← hr]
      rfl
  | succ k ih =>
      intro buf rest packages h
      rw [cut] at h
      split at h
      · injection h with h
        injection h with hp hr
        rw [← hp, ← hr]
        rfl
      · split at h
        · injection h with h
          injection h with hp hr
          rw [← hp, ← hr]
          rfl
        · split at h
          · cases h
          · obtain ⟨r, hr, h⟩ := Option.map_eq_some_iff.mp h
            injection h with hp hrest
            rw [← hp, ← hrest, List.flatten_cons, List.append_assoc, ih hr,
              List.take_append_drop]

/-- A whole package at the front is cut off, and it is not empty. -/
theorem cut_complete {k : ℕ} {buf rest : List Octet}
    {packages : List (List Octet)} (h : cut k buf = some (packages, rest))
    (hk : buf.length ≤ k) (hc : Complete buf) :
    ∃ package more, packages = package :: more ∧ package ≠ [] := by
  cases k with
  | zero =>
      have hlen := hc.1
      omega
  | succ k =>
      rw [cut, if_neg (not_lt.mpr hc.1), if_neg (not_lt.mpr hc.2)] at h
      split at h
      · cases h
      · next hsize =>
          obtain ⟨r, _, h⟩ := Option.map_eq_some_iff.mp h
          injection h with hp _
          refine ⟨_, r.1, hp.symm, fun hnil => ?_⟩
          have hlen := congrArg List.length hnil
          rw [List.length_take_of_le hc.2] at hlen
          exact hsize hlen

theorem cut_incomplete {k : ℕ} {buf rest : List Octet}
    {packages : List (List Octet)} (h : cut k buf = some (packages, rest))
    (hc : ¬ Complete buf) : packages = [] := by
  cases k with
  | zero =>
      injection h with h
      injection h with hp _
      exact hp.symm
  | succ k =>
      rw [cut] at h
      split at h
      · injection h with h
        injection h with hp _
        exact hp.symm
      · next height =>
          split at h
          · injection h with h
            injection h with hp _
            exact hp.symm
          · next hsize => exact absurd ⟨by omega, by omega⟩ hc

/-! ## Whose bytes they are -/

/-- Bytes of the connection are behind those of another one. -/
def Tidy (connection : ℕ) (entry : Option (List Octet)) : Prop :=
  ∀ pending o, entry = some pending → pending.head? = some o →
    o.connection = connection → ∀ x ∈ pending, x.connection = connection

theorem octets_own {connection : ℕ} {chunks : List (List UInt8)} {o : Octet}
    (h : o ∈ octets connection chunks) : o.connection = connection := by
  obtain ⟨b, _, rfl⟩ := List.mem_map.mp h
  rfl

theorem Tidy.append {connection : ℕ} {entry : Option (List Octet)}
    (h : Tidy connection entry) (chunks : List (List UInt8)) :
    Tidy connection (some (entry.getD [] ++ octets connection chunks)) := by
  intro buf o hbuf hhead hown x hx
  injection hbuf with hbuf
  rw [← hbuf] at hhead hx
  rcases List.mem_append.mp hx with hx | hx
  · cases entry with
    | none => cases hx
    | some pending =>
        refine h pending o rfl ?_ hown x hx
        cases pending with
        | nil => cases hx
        | cons a l => exact hhead
  · exact octets_own hx

/-- Of one read, what is cut off the front and what is kept are what was there
and what was read; whole packages are cut off where there are any. -/
structure Cuts (old : Option (List Octet)) (connection : ℕ)
    (chunks : List (List UInt8)) (packages : List (List Octet))
    (entry : Option (List Octet)) : Prop where
  bytes : packages.flatten ++ entry.getD [] =
    old.getD [] ++ octets connection chunks
  complete : ∀ pending, old = some pending →
    Complete (pending ++ octets connection chunks) →
      ∃ package more, packages = package :: more ∧ package ≠ []
  incomplete : ∀ pending, old = some pending →
    ¬ Complete (pending ++ octets connection chunks) → packages = []

variable {old entry : Option (List Octet)} {connection : ℕ}
  {chunks : List (List UInt8)} {packages : List (List Octet)}

theorem Cuts.mem (h : Cuts old connection chunks packages entry) {o : Octet}
    (ho : o ∈ packages.flatten ∨ o ∈ entry.getD []) :
    o ∈ old.getD [] ++ octets connection chunks := by
  rw [← h.bytes, List.mem_append]
  exact ho

/-- Either the packages are nothing but the connection's bytes, or the first
byte of them is not. -/
theorem Cuts.own_iff (h : Cuts old connection chunks packages entry)
    (htidy : Tidy connection old) :
    (∀ p ∈ packages, ∀ o ∈ p, o.connection = connection) ↔
      Unmixed old connection (.reads chunks .again) := by
  have hwhole := htidy.append chunks
  constructor
  · intro hown pending hold o hhead hforeign chunks' heq hcomplete
    injection heq with heq
    subst heq
    obtain ⟨package, more, hp, hne⟩ := h.complete pending hold hcomplete
    obtain ⟨a, l, rfl⟩ := List.exists_cons_of_ne_nil hne
    obtain ⟨b, l', rfl⟩ := List.exists_cons_of_ne_nil
      (List.ne_nil_of_mem (List.mem_of_mem_head? hhead))
    have hbytes := h.bytes
    rw [hp, Option.mem_def.mp hold] at hbytes
    injection hbytes with hab _
    injection hhead with hbo
    refine hforeign ?_
    rw [← hbo, ← hab]
    exact hown (a :: l) (hp ▸ List.mem_cons_self) a List.mem_cons_self
  · intro hun p hp o ho
    have hmem := h.mem (.inl (List.mem_flatten.mpr ⟨p, hp, ho⟩))
    cases hhead : (old.getD [] ++ octets connection chunks).head? with
    | none =>
        rw [List.head?_eq_none_iff.mp hhead] at hmem
        cases hmem
    | some a =>
        by_cases ha : a.connection = connection
        · exact hwhole _ a rfl hhead ha o hmem
        · cases old with
          | none => exact absurd (octets_own (List.mem_of_mem_head? hhead)) ha
          | some pending =>
              cases pending with
              | nil => exact absurd (octets_own (List.mem_of_mem_head? hhead)) ha
              | cons b l =>
                  rw [h.incomplete _ rfl (hun _ rfl a hhead ha chunks rfl)] at hp
                  cases hp

theorem Cuts.tidy (h : Cuts old connection chunks packages entry)
    (htidy : Tidy connection old)
    (hown : ∀ p ∈ packages, ∀ o ∈ p, o.connection = connection) :
    Tidy connection entry := by
  have hwhole := htidy.append chunks
  rw [← h.bytes] at hwhole
  intro pending o hentry hhead ho x hx
  subst hentry
  cases hflat : packages.flatten with
  | nil =>
      rw [hflat] at hwhole
      exact hwhole pending o rfl hhead ho x hx
  | cons a l =>
      obtain ⟨p, hp, ha⟩ := List.mem_flatten.mp
        (hflat ▸ List.mem_cons_self : a ∈ packages.flatten)
      refine hwhole _ a rfl ?_ (hown p hp a ha) x (List.mem_append_right _ hx)
      rw [hflat]
      rfl

/-! ## Reading a connection -/

namespace IbGateway

variable {g : IbGateway} {fd : Fd}

/-- The gateway after reading a connection. -/
def afterRead (g : IbGateway) (fd : Fd) (packages : List (List Octet))
    (entry : Option (List Octet)) : IbGateway :=
  (g.inbufhandler fd packages).setPending fd entry

theorem afterRead_nil : g.afterRead fd [] (g.pendingReads fd) = g := by
  unfold afterRead inbufhandler setPending
  dsimp only
  rw [Function.update_eq_self, List.map_nil, List.append_nil]

theorem afterRead_afterRead {packages packages' : List (List Octet)}
    {entry entry' : Option (List Octet)} :
    (g.afterRead fd packages entry).afterRead fd packages' entry' =
      g.afterRead fd (packages ++ packages') entry' := by
  unfold afterRead inbufhandler setPending connection
  dsimp only
  rw [Function.update_idem, List.map_append, List.append_assoc]

@[simp] theorem pendingReads_afterRead {packages : List (List Octet)}
    {entry : Option (List Octet)} :
    (g.afterRead fd packages entry).pendingReads fd = entry :=
  Function.update_self _ _ _

@[simp] theorem connection_afterRead {packages : List (List Octet)}
    {entry : Option (List Octet)} (fd' : Fd) :
    (g.afterRead fd packages entry).connection fd' = g.connection fd' := rfl

/-- While an entry is there, bytes only go behind it. -/
structure Takes (g : IbGateway) (fd : Fd) (chunks : List (List UInt8))
    (packages : List (List Octet)) (entry : Option (List Octet)) : Prop where
  bytes : packages.flatten ++ entry.getD [] =
    (g.pendingReads fd).getD [] ++ octets (g.connection fd) chunks
  behind : ∀ pending, g.pendingReads fd = some pending →
    packages = [] ∧ entry = some (pending ++ octets (g.connection fd) chunks)

theorem readed_cases (g : IbGateway) (fd : Fd) (chunk : List UInt8) :
    g.readed fd chunk = .error .unending ∨
    ∃ packages entry, g.readed fd chunk = .ok (g.afterRead fd packages entry) ∧
      g.Takes fd [chunk] packages entry := by
  have hbuf : chunk.map (fun b => (⟨b, g.connection fd⟩ : Octet)) =
      octets (g.connection fd) [chunk] := by
    rw [octets, List.flatten_singleton]
  unfold readed
  rw [hbuf]
  dsimp only
  split
  · next pending hpending =>
      refine .inr ⟨[], some (pending ++ octets (g.connection fd) [chunk]),
        ?_, ?_⟩
      · unfold afterRead inbufhandler
        rw [List.map_nil, List.append_nil]
      · refine ⟨by rw [hpending]; rfl, fun p hp => ⟨rfl, ?_⟩⟩
        rw [hpending] at hp
        injection hp with hp
        rw [hp]
  · next hnone =>
      split
      · exact .inl rfl
      · next packages rest hcut =>
          have hbytes := cut_flatten hcut
          refine .inr ⟨packages, if rest = [] then none else some rest, ?_, ?_⟩
          · split
            · next hrest =>
                have hsame := Function.update_eq_self fd g.pendingReads
                rw [hnone] at hsame
                unfold afterRead setPending inbufhandler
                dsimp only
                rw [hsame]
            · rfl
          · refine ⟨?_, fun p hp => absurd (hnone.symm.trans hp) (by simp)⟩
            rw [hnone, ← hbytes]
            split
            · next hrest =>
                rw [hrest]
                rfl
            · rfl

theorem octets_cons {k : ℕ} {chunk : List UInt8} {chunks : List (List UInt8)} :
    octets k (chunk :: chunks) = octets k [chunk] ++ octets k chunks := by
  unfold octets
  rw [List.flatten_cons, List.map_append, List.flatten_singleton]

theorem readAll_cases (chunks : List (List UInt8)) : ∀ g : IbGateway,
    g.readAll fd chunks = .error .unending ∨
    ∃ packages entry, g.readAll fd chunks = .ok (g.afterRead fd packages entry) ∧
      g.Takes fd chunks packages entry := by
  induction chunks with
  | nil =>
      intro g
      refine .inr ⟨[], g.pendingReads fd, ?_, ?_⟩
      · rw [afterRead_nil]
        rfl
      · refine ⟨(List.append_nil _).symm, fun p hp => ⟨rfl, ?_⟩⟩
        rw [hp]
        exact congrArg some (List.append_nil p).symm
  | cons chunk chunks ih =>
      intro g
      rcases readed_cases g fd chunk with herr | ⟨packages, entry, hok, htakes⟩
      · left
        show (g.readed fd chunk).bind _ = _
        rw [herr]
        rfl
      · have hstep : g.readAll fd (chunk :: chunks) =
            (g.afterRead fd packages entry).readAll fd chunks := by
          show (g.readed fd chunk).bind _ = _
          rw [hok]
          rfl
        rw [hstep]
        rcases ih (g.afterRead fd packages entry) with
          herr | ⟨packages', entry', hok', htakes'⟩
        · exact .inl herr
        · obtain ⟨hbytes, hbehind⟩ := htakes'
          rw [pendingReads_afterRead, connection_afterRead] at hbytes hbehind
          refine .inr ⟨packages ++ packages', entry', ?_, ?_, ?_⟩
          · rw [hok', afterRead_afterRead]
          · rw [List.flatten_append, List.append_assoc, hbytes,
              ← List.append_assoc, htakes.bytes, List.append_assoc,
              ← octets_cons]
          · intro pending hpending
            obtain ⟨hnil, hentry⟩ := htakes.behind pending hpending
            obtain ⟨hnil', hentry'⟩ := hbehind _ hentry
            refine ⟨by rw [hnil, hnil']; rfl, ?_⟩
            rw [hentry', List.append_assoc, ← octets_cons]

/-- A read that comes to `EAGAIN`. -/
theorem reads_again_cases (g : IbGateway) (fd : Fd) (chunks : List (List UInt8)) :
    ((g.readAll fd chunks).bind fun g => g.again fd) = .error .unending ∨
    ∃ packages entry,
      ((g.readAll fd chunks).bind fun g => g.again fd) =
        .ok (g.afterRead fd packages entry) ∧
      Cuts (g.pendingReads fd) (g.connection fd) chunks packages entry := by
  rcases readAll_cases chunks g with herr | ⟨packages, entry, hok, htakes⟩
  · exact .inl (by rw [herr]; rfl)
  · rw [hok]
    show (g.afterRead fd packages entry).again fd = _ ∨ ∃ _ _,
      (g.afterRead fd packages entry).again fd = _ ∧ _
    unfold again
    rw [pendingReads_afterRead]
    cases entry with
    | none =>
        refine .inr ⟨packages, none, rfl, htakes.bytes, ?_, ?_⟩
        · intro pending hpending
          cases (htakes.behind pending hpending).2
        · intro pending hpending
          cases (htakes.behind pending hpending).2
    | some buf =>
        dsimp only
        cases hcut : cut buf.length buf with
        | none => exact .inl rfl
        | some r =>
            obtain ⟨packages', rest⟩ := r
            have hbytes := cut_flatten hcut
            refine .inr ⟨packages ++ packages', some rest, ?_, ?_, ?_, ?_⟩
            · exact congrArg Except.ok afterRead_afterRead
            · rw [List.flatten_append, List.append_assoc,
                show (some rest).getD [] = rest from rfl, hbytes]
              exact htakes.bytes
            · intro pending hpending hcomplete
              obtain ⟨hnil, hbuf⟩ := htakes.behind pending hpending
              injection hbuf with hbuf
              rw [hnil]
              exact cut_complete hcut (le_refl _) (hbuf ▸ hcomplete)
            · intro pending hpending hincomplete
              obtain ⟨hnil, hbuf⟩ := htakes.behind pending hpending
              injection hbuf with hbuf
              rw [hnil]
              exact cut_incomplete hcut (hbuf ▸ hincomplete)

/-! ## Entry by entry -/

/-- The descriptors of the connections whose event closes them. -/
def ended (cs : List (Fd × ℕ)) (es : List Event) : List Fd :=
  ((cs.zip es).filter fun p => p.2.ends).map fun p => p.1.1

def Own (g : IbGateway) : Prop :=
  ∀ h ∈ g.handled, ∀ o ∈ h.package, o.connection = h.connection

/-- All bytes are of connections accepted so far. -/
def Older (accepted : ℕ) (entry : Option (List Octet)) : Prop :=
  ∀ pending, entry = some pending → ∀ o ∈ pending, o.connection < accepted

/-- The events of some connections have been handled. -/
structure Handles (g g' : IbGateway) (cs : List (Fd × ℕ)) (es : List Event) :
    Prop where
  sockfd : g'.sockfd = g.sockfd
  fds : g'.fds = g.fds
  nfds : g'.nfds = g.nfds
  accepted : g'.accepted = g.accepted
  connections : g'.connections =
    g.connections.filter fun c => c.1 ∉ ended cs es
  removed : ∀ fd, fd ∈ g'.fdremoveset ↔ fd ∈ g.fdremoveset ∨ fd ∈ ended cs es
  others : ∀ fd, fd ∉ cs.map Prod.fst → g'.pendingReads fd = g.pendingReads fd
  own : g'.Own ↔ g.Own ∧
    ∀ p ∈ cs.zip es, Unmixed (g.pendingReads p.1.1) p.1.2 p.2
  tidy : g'.Own → ∀ c ∈ cs, Tidy c.2 (g'.pendingReads c.1)
  older : (∀ fd, Older g.accepted (g.pendingReads fd)) →
    ∀ fd, Older g.accepted (g'.pendingReads fd)

theorem own_afterRead {packages : List (List Octet)}
    {entry : Option (List Octet)} : (g.afterRead fd packages entry).Own ↔
      g.Own ∧ ∀ p ∈ packages, ∀ o ∈ p, o.connection = g.connection fd := by
  constructor
  · intro h
    refine ⟨fun c hc => h c (List.mem_append_left _ hc), fun p hp => ?_⟩
    exact h ⟨g.connection fd, p⟩
      (List.mem_append_right _ (List.mem_map_of_mem hp))
  · intro h c hc
    rcases List.mem_append.mp hc with hc | hc
    · exact h.1 c hc
    · obtain ⟨p, hp, rfl⟩ := List.mem_map.mp hc
      exact h.2 p hp

theorem connection_eq {k : ℕ} (h : (fd, k) ∈ g.connections)
    (honce : (g.connections.map Prod.fst).Nodup) : g.connection fd = k := by
  unfold connection
  have hget : (Dict.mk g.connections honce).get? fd = some k := Dict.get?_of_mem h
  rw [Dict.get?] at hget
  rw [hget, Option.getD_some]

theorem pendingReads_update {entry : Option (List Octet)} {fd' : Fd}
    (h : fd' ≠ fd) {packages : List (List Octet)} :
    (g.afterRead fd packages entry).pendingReads fd' = g.pendingReads fd' :=
  Function.update_of_ne h _ _

theorem filter_ended_nil {c : Fd × ℕ} {e : Event} (h : e.ends = false) :
    ended [c] [e] = [] := by
  unfold ended
  rw [List.zip_cons_cons, List.filter_cons_of_neg (by simp [h])]
  rfl

theorem ended_singleton {c : Fd × ℕ} {e : Event} (h : e.ends = true) :
    ended [c] [e] = [c.1] := by
  unfold ended
  rw [List.zip_cons_cons, List.filter_cons_of_pos (by simp [h])]
  rfl

/-- A connection that is read up to `EAGAIN`. -/
theorem handles_again {k : ℕ} {chunks : List (List UInt8)}
    {packages : List (List Octet)} {entry : Option (List Octet)}
    (hk : g.connection fd = k) (hage : k < g.accepted)
    (htidy : Tidy k (g.pendingReads fd))
    (h : Cuts (g.pendingReads fd) (g.connection fd) chunks packages entry) :
    Handles g (g.afterRead fd packages entry) [(fd, k)]
      [.reads chunks .again] := by
  rw [hk] at h
  have hend : ended [(fd, k)] [.reads chunks .again] = [] :=
    filter_ended_nil rfl
  refine ⟨rfl, rfl, rfl, rfl, ?_, ?_, ?_, ?_, ?_, ?_⟩
  · rw [hend]
    exact (List.filter_eq_self.mpr fun _ _ => by simp).symm
  · rw [hend]
    exact fun fd' => ⟨.inl, fun h => h.resolve_right List.not_mem_nil⟩
  · intro fd' hfd'
    exact pendingReads_update (List.ne_of_not_mem_cons hfd')
  · rw [own_afterRead, hk, h.own_iff htidy]
    simp
  · intro hown c hc
    rw [List.mem_singleton.mp hc, pendingReads_afterRead]
    have hpk := (own_afterRead.mp hown).2
    rw [hk] at hpk
    exact h.tidy htidy hpk
  · intro hold fd' pending hpending o ho
    by_cases heq : fd' = fd
    · rw [heq, pendingReads_afterRead] at hpending
      have hmem := h.mem (.inr (by rw [hpending]; exact ho))
      rcases List.mem_append.mp hmem with hmem | hmem
      · cases hg : g.pendingReads fd with
        | none =>
            rw [hg] at hmem
            cases hmem
        | some p =>
            rw [hg] at hmem
            exact hold fd p hg o hmem
      · rw [octets_own hmem]
        exact hage
    · rw [pendingReads_update heq] at hpending
      exact hold fd' pending hpending o ho

/-- A connection that is closed and has no entry left, after its last bytes. -/
theorem handles_closed {k : ℕ} {chunks : List (List UInt8)} {ending : Ending}
    {packages : List (List Octet)} {entry : Option (List Octet)}
    (hending : ending ≠ .again) (h : g.Takes fd chunks packages entry) :
    Handles g (((g.afterRead fd packages entry).close fd).setPending fd none)
      [(fd, k)] [.reads chunks ending] := by
  have hend : ended [(fd, k)] [.reads chunks ending] = [fd] := by
    refine ended_singleton ?_
    cases ending with
    | again => exact absurd rfl hending
    | eof => rfl
    | error => rfl
  have hown : ∀ p ∈ packages, ∀ o ∈ p, o.connection = g.connection fd := by
    intro p hp o ho
    cases hg : g.pendingReads fd with
    | none =>
        have hbytes := h.bytes
        rw [hg] at hbytes
        have hmem : o ∈ packages.flatten ++ entry.getD [] :=
          List.mem_append_left _ (List.mem_flatten.mpr ⟨p, hp, ho⟩)
        rw [hbytes] at hmem
        exact octets_own hmem
    | some pending =>
        rw [(h.behind pending hg).1] at hp
        cases hp
  have hpend : ∀ fd', fd' ≠ fd →
      (((g.afterRead fd packages entry).close fd).setPending fd
        none).pendingReads fd' = g.pendingReads fd' := by
    intro fd' hne
    refine (Function.update_of_ne hne _ _).trans ?_
    exact pendingReads_update hne
  have hself : (((g.afterRead fd packages entry).close fd).setPending fd
      none).pendingReads fd = none := Function.update_self _ _ _
  refine ⟨rfl, rfl, rfl, rfl, ?_, ?_, ?_, ?_, ?_, ?_⟩
  · rw [hend]
    show g.connections.filter _ = _
    congr 1
    funext c
    simp
  · intro fd'
    rw [hend, List.mem_singleton]
    show fd' ∈ g.fdremoveset.insert fd ↔ _
    rw [OrdSet.mem_insert]
    exact or_comm
  · intro fd' hfd'
    exact hpend fd' (List.ne_of_not_mem_cons hfd')
  · have hun : Unmixed (g.pendingReads fd) k (.reads chunks ending) := by
      intro pending _ o _ _ chunks' heq
      cases ending with
      | again => exact absurd rfl hending
      | eof => cases heq
      | error => cases heq
    show (g.afterRead fd packages entry).Own ↔ _
    rw [own_afterRead, List.zip_cons_cons, List.zip_nil_left,
      List.forall_mem_singleton]
    exact ⟨fun h => ⟨h.1, hun⟩, fun h => ⟨h.1, hown⟩⟩
  · intro _ c hc
    rw [List.mem_singleton.mp hc, hself]
    intro pending o hnone
    cases hnone
  · intro hold fd' pending hpending
    by_cases heq : fd' = fd
    · rw [heq, hself] at hpending
      cases hpending
    · rw [hpend fd' heq] at hpending
      exact hold fd' pending hpending

/-- A connection that hangs up is closed, and its entry stays. -/
theorem handles_hangup {k : ℕ} (htidy : Tidy k (g.pendingReads fd)) :
    Handles g (g.close fd) [(fd, k)] [.hangup] := by
  have hend : ended [(fd, k)] [.hangup] = [fd] := ended_singleton rfl
  refine ⟨rfl, rfl, rfl, rfl, ?_, ?_, fun _ _ => rfl, ?_, ?_, fun h => h⟩
  · rw [hend]
    show g.connections.filter _ = _
    congr 1
    funext c
    simp
  · intro fd'
    rw [hend, List.mem_singleton]
    show fd' ∈ g.fdremoveset.insert fd ↔ _
    rw [OrdSet.mem_insert]
    exact or_comm
  · have hun : Unmixed (g.pendingReads fd) k .hangup := by
      intro pending _ o _ _ chunks heq
      cases heq
    show g.Own ↔ _
    simp [hun]
  · intro _ c hc
    rw [List.mem_singleton.mp hc]
    exact htidy

theorem handles_quiet {k : ℕ} (htidy : Tidy k (g.pendingReads fd)) :
    Handles g g [(fd, k)] [.quiet] := by
  have hend : ended [(fd, k)] [.quiet] = [] := filter_ended_nil rfl
  refine ⟨rfl, rfl, rfl, rfl, ?_, ?_, fun _ _ => rfl, ?_, ?_, fun h => h⟩
  · rw [hend]
    exact (List.filter_eq_self.mpr fun _ _ => by simp).symm
  · rw [hend]
    exact fun fd' => ⟨.inl, fun h => h.resolve_right List.not_mem_nil⟩
  · have hun : Unmixed (g.pendingReads fd) k .quiet := by
      intro pending _ o _ _ chunks heq
      cases heq
    simp [hun]
  · intro _ c hc
    rw [List.mem_singleton.mp hc]
    exact htidy

/-- Whatever happens at the entry of a connection, the round goes on with it
handled, unless a package of no size keeps it there. -/
theorem handle_cases {n k : ℕ} {e : Event} (hat : g.fds[n]? = some (some fd))
    (hne : fd ≠ g.sockfd) (hk : g.connection fd = k) (hage : k < g.accepted)
    (haccept : ∀ newfd setsockopt, e ≠ .accept newfd setsockopt)
    (htidy : Tidy k (g.pendingReads fd)) :
    g.handle n e = .error .unending ∨
    ∃ g', g.handle n e = .ok g' ∧ Handles g g' [(fd, k)] [e] := by
  have hfd : fdAt g.fds n = .ok fd := by
    unfold fdAt
    rw [hat]
  cases e with
  | quiet => exact .inr ⟨g, rfl, handles_quiet htidy⟩
  | hangup =>
      refine .inr ⟨g.close fd, ?_, handles_hangup htidy⟩
      unfold handle
      rw [hfd]
      exact if_neg hne
  | accept newfd setsockopt => exact absurd rfl (haccept newfd setsockopt)
  | reads chunks ending =>
      have hreads : g.handle n (.reads chunks ending) =
          (g.readAll fd chunks).bind fun g => g.finish fd ending := by
        rw [handle, hfd]
        exact if_neg hne
      by_cases hending : ending = .again
      · subst hending
        rw [hreads]
        rcases reads_again_cases g fd chunks with
          herr | ⟨packages, entry, hok, hcuts⟩
        · exact .inl herr
        · exact .inr ⟨_, hok, handles_again hk hage htidy hcuts⟩
      · rcases readAll_cases chunks g with herr | ⟨packages, entry, hok, htakes⟩
        · exact .inl (by rw [hreads, herr]; rfl)
        · refine .inr ⟨_, ?_, handles_closed hending htakes⟩
          rw [hreads, hok]
          cases ending with
          | again => exact absurd rfl hending
          | eof => rfl
          | error => rfl

theorem ended_cons (c : Fd × ℕ) (cs : List (Fd × ℕ)) (e : Event)
    (es : List Event) : ended (c :: cs) (e :: es) =
      ended [c] [e] ++ ended cs es := by
  unfold ended
  rw [List.zip_cons_cons, List.zip_cons_cons, ← List.map_append,
    ← List.filter_append]
  rfl

theorem ended_subset {cs : List (Fd × ℕ)} {es : List Event} {fd : Fd}
    (h : fd ∈ ended cs es) : fd ∈ cs.map Prod.fst := by
  obtain ⟨p, hp, rfl⟩ := List.mem_map.mp h
  exact List.mem_map_of_mem (List.of_mem_zip (List.mem_of_mem_filter hp)).1

/-- One connection after the other. -/
theorem Handles.cons {g₁ g₂ : IbGateway} {c : Fd × ℕ} {cs : List (Fd × ℕ)}
    {e : Event} {es : List Event} (h : Handles g g₁ [c] [e])
    (h' : Handles g₁ g₂ cs es) (hc : c.1 ∉ cs.map Prod.fst) :
    Handles g g₂ (c :: cs) (e :: es) := by
  have hsame : ∀ d ∈ cs, g₁.pendingReads d.1 = g.pendingReads d.1 := by
    intro d hd
    refine h.others d.1 fun hmem => hc ?_
    rw [← List.mem_singleton.mp hmem]
    exact List.mem_map_of_mem hd
  have hzip : ∀ p ∈ cs.zip es, g₁.pendingReads p.1.1 = g.pendingReads p.1.1 :=
    fun p hp => hsame p.1 (List.of_mem_zip hp).1
  refine ⟨h'.sockfd.trans h.sockfd, h'.fds.trans h.fds, h'.nfds.trans h.nfds,
    h'.accepted.trans h.accepted, ?_, fun fd => ?_, fun fd hfd => ?_, ?_, ?_, ?_⟩
  · rw [h'.connections, h.connections, List.filter_filter,
      ended_cons c cs e es]
    congr 1
    funext d
    rw [Bool.eq_iff_iff, Bool.and_eq_true, decide_eq_true_iff,
      decide_eq_true_iff, decide_eq_true_iff, List.mem_append, not_or]
    exact and_comm
  · rw [h'.removed, h.removed, ended_cons c cs e es, List.mem_append, or_assoc]
  · rw [List.map_cons, List.mem_cons, not_or] at hfd
    rw [h'.others fd hfd.2, h.others fd (by simpa using hfd.1)]
  · rw [h'.own, h.own, show [c].zip [e] = [(c, e)] from rfl,
      List.forall_mem_singleton, List.zip_cons_cons, List.forall_mem_cons,
      and_assoc]
    refine and_congr_right fun _ => and_congr_right fun _ => ?_
    exact forall₂_congr fun p hp => by rw [hzip p hp]
  · intro hown d hd
    rcases List.mem_cons.mp hd with rfl | hd
    · rw [h'.others d.1 hc]
      exact h.tidy (h'.own.mp hown).1 d List.mem_cons_self
    · exact h'.tidy hown d hd
  · intro hold
    have hold₁ := h.older hold
    rw [← h.accepted] at hold₁
    rw [← h.accepted]
    exact h'.older hold₁

/-- The loop over the connections, from one of them on. -/
theorem handleAll_cases (es : List Event) : ∀ {g : IbGateway} {n : ℕ}
    {cs : List (Fd × ℕ)}, es.length ≤ cs.length →
    (∀ (i : ℕ) (c : Fd × ℕ), cs[i]? = some c →
      g.fds[n + i]? = some (some c.1)) →
    (cs.map Prod.fst).Nodup → (g.connections.map Prod.fst).Nodup →
    (∀ c ∈ cs, c ∈ g.connections ∧ c.1 ≠ g.sockfd ∧ c.2 < g.accepted ∧
      Tidy c.2 (g.pendingReads c.1)) →
    (∀ e ∈ es, ∀ newfd setsockopt, e ≠ .accept newfd setsockopt) →
    g.handleAll n es = .error .unending ∨
      ∃ g', g.handleAll n es = .ok g' ∧ Handles g g' cs es := by
  induction es with
  | nil =>
      intro g n cs _ _ _ _ hcs _
      have hend : ended cs [] = [] := by
        unfold ended
        rw [List.zip_nil_right]
        rfl
      refine .inr ⟨g, rfl, rfl, rfl, rfl, rfl, ?_, ?_, fun _ _ => rfl, ?_, ?_,
        fun h => h⟩
      · rw [hend]
        exact (List.filter_eq_self.mpr fun _ _ => by simp).symm
      · rw [hend]
        exact fun fd' => ⟨.inl, fun h => h.resolve_right List.not_mem_nil⟩
      · rw [List.zip_nil_right]
        exact ⟨fun h => ⟨h, fun p hp => absurd hp List.not_mem_nil⟩, And.left⟩
      · exact fun _ c hc => (hcs c hc).2.2.2
  | cons e es ih =>
      intro g n cs hlen hat hnodup honce hcs haccept
      cases cs with
      | nil => exact absurd hlen (by simp)
      | cons c cs =>
          obtain ⟨fd, k⟩ := c
          obtain ⟨hopen, hne, hage, htidy⟩ := hcs _ List.mem_cons_self
          rw [List.map_cons, List.nodup_cons] at hnodup
          have hfd : g.fds[n]? = some (some fd) := hat 0 (fd, k) rfl
          rcases handle_cases hfd hne (connection_eq hopen honce) hage
            (haccept e List.mem_cons_self) htidy with herr | ⟨g₁, hok, hstep⟩
          · left
            show (g.handle n e).bind _ = _
            rw [herr]
            rfl
          · have hrest : g.handleAll n (e :: es) = g₁.handleAll (n + 1) es := by
              show (g.handle n e).bind _ = _
              rw [hok]
              rfl
            rw [hrest]
            have hother : ∀ d ∈ cs, d.1 ≠ fd := by
              intro d hd heq
              have hmem : d.1 ∈ cs.map Prod.fst := List.mem_map_of_mem hd
              rw [heq] at hmem
              exact hnodup.1 hmem
            have hgone : ∀ d ∈ cs, d.1 ∉ ended [(fd, k)] [e] := by
              intro d hd hmem
              exact hother d hd (List.mem_singleton.mp (ended_subset hmem))
            have hat₁ : ∀ (i : ℕ) (d : Fd × ℕ), cs[i]? = some d →
                g₁.fds[n + 1 + i]? = some (some d.1) := by
              intro i d hd
              rw [hstep.fds, show n + 1 + i = n + (i + 1) by omega]
              exact hat (i + 1) d hd
            have honce₁ : (g₁.connections.map Prod.fst).Nodup := by
              rw [hstep.connections]
              exact honce.sublist (List.filter_sublist.map Prod.fst)
            have hcs₁ : ∀ d ∈ cs, d ∈ g₁.connections ∧ d.1 ≠ g₁.sockfd ∧
                d.2 < g₁.accepted ∧ Tidy d.2 (g₁.pendingReads d.1) := by
              intro d hd
              obtain ⟨hopen', hne', hage', htidy'⟩ :=
                hcs d (List.mem_cons_of_mem _ hd)
              rw [hstep.connections, hstep.sockfd, hstep.accepted,
                hstep.others d.1 (by simpa using hother d hd)]
              exact ⟨List.mem_filter.mpr ⟨hopen', decide_eq_true (hgone d hd)⟩,
                hne', hage', htidy'⟩
            rcases ih (Nat.le_of_succ_le_succ hlen) hat₁ hnodup.2 honce₁ hcs₁
              (fun e he => haccept e (List.mem_cons_of_mem _ he)) with
              herr | ⟨g₂, hok₂, hstep₂⟩
            · exact .inl herr
            · exact .inr ⟨g₂, hok₂, hstep.cons hstep₂ hnodup.1⟩

/-! ## The round -/

/-- What else is so between two rounds. -/
structure Settled (g : IbGateway) : Prop where
  tabled : g.Tabled
  removed : g.fdremoveset.card = 0
  numbered : ∀ c ∈ g.connections, c.2 < g.accepted
  tidy : ∀ c ∈ g.connections, Tidy c.2 (g.pendingReads c.1)
  older : ∀ fd, Older g.accepted (g.pendingReads fd)

theorem settled_listening (sockfd : Fd) : Settled (listening sockfd) where
  tabled := ⟨rfl, rfl, List.nodup_singleton sockfd, List.Pairwise.nil,
    fun _ h => absurd h List.not_mem_nil⟩
  removed := rfl
  numbered := fun _ h => absurd h List.not_mem_nil
  tidy := fun _ h => absurd h List.not_mem_nil
  older := fun _ pending h => absurd h (by simp [listening, init])

/-- The listener has added a connection. -/
def join (g : IbGateway) (newfd : Fd) : IbGateway :=
  { g.accept newfd with fds := g.fds ++ [some newfd], nfds := g.nfds + 1 }

/-- A descriptor that is not in use. -/
def Fresh (g : IbGateway) (newfd : Fd) : Prop :=
  newfd ≠ g.sockfd ∧ ¬ g.Open newfd

theorem Tabled.listener (h : g.Tabled) : g.fds[0]? = some (some g.sockfd) := by
  rw [h.fds]
  rfl

theorem Possible.fits_at {es : List Event} (h : g.Possible es) {n : ℕ}
    {e : Event} (hfd : g.fds[n]? = some (some fd)) (he : es[n]? = some e) :
    g.Fits fd e :=
  h.fits (e, some fd)
    (List.mem_of_getElem? (List.getElem?_zip_eq_some.mpr ⟨he, hfd⟩)) fd rfl

/-- A round begins with the listener. It accepts nobody, or somebody who is
added, or somebody who is not. -/
theorem listener_cases {es : List Event} (h : g.Tabled)
    (hp : g.Possible es) :
    (g.handleAll 0 es = g.handleAll 1 es.tail ∧ joined es = 0 ∧
      missed es = false) ∨
    ∃ newfd, g.Fresh newfd ∧
      ((g.handleAll 0 es = (g.join newfd).handleAll 1 es.tail ∧ joined es = 1 ∧
        missed es = false) ∨
      (g.handleAll 0 es = (g.accept newfd).handleAll 1 es.tail ∧
        missed es = true)) := by
  cases es with
  | nil => exact .inl ⟨rfl, rfl, rfl⟩
  | cons e es =>
      have hfits := hp.fits_at h.listener rfl
      have hfd : fdAt g.fds 0 = .ok g.sockfd := by
        unfold fdAt
        rw [h.listener]
      have hfirst : ∀ g₁, g.handle 0 e = .ok g₁ →
          g.handleAll 0 (e :: es) = g₁.handleAll 1 es := by
        intro g₁ hok
        show (g.handle 0 e).bind _ = _
        rw [hok]
        rfl
      cases e with
      | quiet => exact .inl ⟨hfirst g rfl, rfl, rfl⟩
      | hangup =>
          refine .inl ⟨hfirst g ?_, rfl, rfl⟩
          unfold handle
          rw [hfd]
          exact if_pos rfl
      | reads chunks ending =>
          have honce := h.once
          rw [List.nodup_cons] at honce
          exact absurd hfits.1 honce.1
      | accept newfd setsockopt =>
          cases newfd with
          | none =>
              refine .inl ⟨hfirst g ?_, rfl, rfl⟩
              unfold handle
              rw [hfd]
              exact if_pos rfl
          | some newfd =>
              refine .inr ⟨newfd, hfits.2 newfd rfl, ?_⟩
              cases setsockopt with
              | true =>
                  refine .inl ⟨hfirst _ ?_, rfl, rfl⟩
                  unfold handle
                  rw [hfd]
                  have hn : (g.accept newfd).nfds =
                    (g.accept newfd).fds.length := h.nfds
                  exact (if_pos rfl).trans (addtofds_eq hn newfd)
              | false =>
                  refine .inr ⟨hfirst _ ?_, rfl⟩
                  unfold handle
                  rw [hfd]
                  exact if_pos rfl

/-- The gateway when it comes to its connections: `entries` have joined the
array, `new` has been accepted. -/
structure Begins (g g₁ : IbGateway) (entries : List Fd) (new : List (Fd × ℕ)) :
    Prop where
  sockfd : g₁.sockfd = g.sockfd
  fds : g₁.fds = g.fds ++ entries.map some
  nfds : g₁.nfds = g₁.fds.length
  fdremoveset : g₁.fdremoveset = g.fdremoveset
  pendingReads : g₁.pendingReads = g.pendingReads
  handled : g₁.handled = g.handled
  connections : g₁.connections = g.connections ++ new
  once : (g.sockfd :: g₁.connections.map Prod.fst).Nodup
  order : (g₁.connections.map Prod.snd).Pairwise (· < ·)
  numbered : ∀ c ∈ g₁.connections, c.2 < g₁.accepted
  tidy : ∀ c ∈ g₁.connections, Tidy c.2 (g₁.pendingReads c.1)
  older : ∀ fd, Older g₁.accepted (g₁.pendingReads fd)

theorem begins_self (h : Settled g) : Begins g g [] [] where
  sockfd := rfl
  fds := (List.append_nil _).symm
  nfds := h.tabled.nfds
  fdremoveset := rfl
  pendingReads := rfl
  handled := rfl
  connections := (List.append_nil _).symm
  once := h.tabled.once
  order := h.tabled.order
  numbered := h.numbered
  tidy := h.tidy
  older := h.older

theorem begins_accept {newfd : Fd} (h : Settled g) (hfresh : g.Fresh newfd) :
    Begins g (g.accept newfd) [] [(newfd, g.accepted)] where
  sockfd := rfl
  fds := (List.append_nil _).symm
  nfds := h.tabled.nfds
  fdremoveset := rfl
  pendingReads := rfl
  handled := rfl
  connections := rfl
  once := by
    show (g.sockfd :: (g.connections ++ [(newfd, g.accepted)]).map
      Prod.fst).Nodup
    rw [List.map_append, ← List.cons_append]
    refine List.Nodup.append h.tabled.once (List.nodup_singleton _) ?_
    refine List.disjoint_singleton.mpr fun hmem => ?_
    rcases List.mem_cons.mp hmem with heq | hmem
    · exact hfresh.1 heq
    · exact hfresh.2 hmem
  order := by
    show ((g.connections ++ [(newfd, g.accepted)]).map Prod.snd).Pairwise _
    rw [List.map_append, List.pairwise_append]
    refine ⟨h.tabled.order, List.pairwise_singleton _ _, fun n hn m hm => ?_⟩
    obtain ⟨c, hc, rfl⟩ := List.mem_map.mp hn
    rw [List.mem_singleton.mp hm]
    exact h.numbered c hc
  numbered := by
    intro c hc
    show c.2 < g.accepted + 1
    rcases List.mem_append.mp hc with hc | hc
    · exact Nat.lt_succ_of_lt (h.numbered c hc)
    · rw [List.mem_singleton.mp hc]
      exact Nat.lt_succ_self _
  tidy := by
    intro c hc
    rcases List.mem_append.mp hc with hc | hc
    · exact h.tidy c hc
    · -- what is under the descriptor is of earlier connections
      rw [List.mem_singleton.mp hc]
      intro pending o hpending hhead ho
      have hlt := h.older newfd pending hpending o (List.mem_of_mem_head? hhead)
      exact absurd ho (Nat.ne_of_lt hlt)
  older := fun fd pending hpending o ho =>
    Nat.lt_succ_of_lt (h.older fd pending hpending o ho)

theorem begins_join {newfd : Fd} (h : Settled g) (hfresh : g.Fresh newfd) :
    Begins g (g.join newfd) [newfd] [(newfd, g.accepted)] :=
  { begins_accept h hfresh with
    fds := rfl
    nfds := by
      show g.nfds + 1 = (g.fds ++ [some newfd]).length
      rw [List.length_append, h.tabled.nfds]
      rfl }

variable {g₁ g₂ : IbGateway} {entries : List Fd} {new : List (Fd × ℕ)}
  {es : List Event}

theorem Possible.accept_zero (hp : g.Possible es) (h : g.Tabled) {e : Event}
    (he : e ∈ es.tail) (newfd : Option Fd) (setsockopt : Bool) :
    e ≠ .accept newfd setsockopt := by
  intro heq
  obtain ⟨n, hn, hget⟩ := List.mem_iff_getElem.mp he
  rw [List.getElem_tail] at hget
  rw [List.length_tail] at hn
  have hlen := hp.polled
  have hnfds := h.nfds
  rw [h.fds, List.length_map, List.length_cons] at hnfds
  have hlt : n < (g.connections.map Prod.fst).length := by omega
  have hat : g.fds[n + 1]? = some (some (g.connections.map Prod.fst)[n]) := by
    rw [h.fds, List.map_cons, List.getElem?_cons_succ, List.getElem?_map,
      List.getElem?_eq_getElem hlt]
    rfl
  have hfits := hp.fits_at hat (List.getElem?_eq_some_iff.mpr ⟨_, hget⟩)
  rw [heq] at hfits
  refine (List.nodup_cons.mp h.once).1 ?_
  rw [← hfits.1]
  exact List.getElem_mem hlt

/-- The rest of the round is about the connections that were there. -/
theorem Begins.handleAll_cases (h : Begins g g₁ entries new) (hs : Settled g)
    (hp : g.Possible es) : g₁.handleAll 1 es.tail = .error .unending ∨
    ∃ g₂, g₁.handleAll 1 es.tail = .ok g₂ ∧
      Handles g₁ g₂ g.connections es.tail := by
  have hnfds := hs.tabled.nfds
  rw [hs.tabled.fds, List.length_map, List.length_cons, List.length_map] at hnfds
  refine IbGateway.handleAll_cases es.tail ?_ ?_ ?_ ?_ ?_ ?_
  · have hlen := hp.polled
    rw [List.length_tail]
    omega
  · intro i c hc
    have hlt := (List.getElem?_eq_some_iff.mp hc).1
    rw [h.fds, hs.tabled.fds, List.map_cons, List.cons_append, Nat.add_comm,
      List.getElem?_cons_succ, List.getElem?_append_left (by simpa using hlt),
      List.getElem?_map, List.getElem?_map, hc]
    rfl
  · exact (List.nodup_cons.mp hs.tabled.once).2
  · exact (List.nodup_cons.mp h.once).2
  · intro c hc
    have hc₁ : c ∈ g₁.connections := by
      rw [h.connections]
      exact List.mem_append_left _ hc
    refine ⟨hc₁, fun heq => ?_, h.numbered c hc₁, h.tidy c hc₁⟩
    refine (List.nodup_cons.mp h.once).1 ?_
    rw [← h.sockfd, ← heq]
    exact List.mem_map_of_mem hc₁
  · exact fun e he => hp.accept_zero hs.tabled he

/-- A descriptor is closed by the event at its entry. -/
theorem mem_ended_iff {cs : List (Fd × ℕ)} {es : List Event}
    (hnodup : (cs.map Prod.fst).Nodup) {n : ℕ} {c : Fd × ℕ}
    (hc : cs[n]? = some c) :
    c.1 ∈ ended cs es ↔ ∃ e, es[n]? = some e ∧ e.ends = true := by
  constructor
  · intro hmem
    obtain ⟨p, hp, heq⟩ := List.mem_map.mp hmem
    obtain ⟨hp, hends⟩ := List.mem_filter.mp hp
    obtain ⟨i, hi, hget⟩ := List.mem_iff_getElem.mp hp
    have hzip : (cs.zip es)[i]? = some p := List.getElem?_eq_some_iff.mpr ⟨hi, hget⟩
    obtain ⟨hci, hei⟩ := List.getElem?_zip_eq_some.mp hzip
    have hfst : (cs.map Prod.fst)[i]? = (cs.map Prod.fst)[n]? := by
      rw [List.getElem?_map, List.getElem?_map, hci, hc]
      exact congrArg some heq
    have hlt := (List.getElem?_eq_some_iff.mp hci).1
    rw [List.getElem?_inj (by simpa using hlt) hnodup] at hfst
    exact ⟨p.2, hfst ▸ hei, hends⟩
  · intro h
    obtain ⟨e, he, hends⟩ := h
    have hzip : (cs.zip es)[n]? = some (c, e) :=
      List.getElem?_zip_eq_some.mpr ⟨hc, he⟩
    refine List.mem_map.mpr ⟨(c, e), List.mem_filter.mpr ⟨?_, hends⟩, rfl⟩
    exact List.mem_of_getElem? hzip

/-- At each entry, those that have joined included. -/
theorem Begins.endsAt_iff (hb : Begins g g₁ entries new) (hs : Settled g)
    (hp : g.Possible es) {n : ℕ} {fd : Fd}
    (hat : (g.sockfd :: g₁.connections.map Prod.fst)[n]? = some fd) :
    fd ∈ ended g.connections es.tail ↔ EndsAt es n := by
  have honce := List.nodup_cons.mp hb.once
  rw [hb.connections, List.map_append] at honce hat
  have hparts := List.nodup_append.mp honce.2
  cases n with
  | zero =>
      injection hat with hat
      constructor
      · intro hmem
        rw [← hat] at hmem
        exact absurd (List.mem_append_left _ (ended_subset hmem)) honce.1
      · exact fun hends => absurd rfl hends.1
  | succ n =>
      rw [List.getElem?_cons_succ] at hat
      have htail : EndsAt es (n + 1) ↔
          ∃ e, es.tail[n]? = some e ∧ e.ends = true := by
        rw [EndsAt, List.getElem?_tail]
        exact ⟨fun h => h.2, fun h => ⟨Nat.succ_ne_zero n, h⟩⟩
      rw [htail]
      by_cases hlt : n < g.connections.length
      · rw [List.getElem?_append_left (by simpa using hlt), List.getElem?_map] at hat
        obtain ⟨c, hc, rfl⟩ := Option.map_eq_some_iff.mp hat
        exact mem_ended_iff hparts.1 hc
      · constructor
        · intro hmem
          rw [List.getElem?_append_right (by simpa using hlt)] at hat
          have hin := List.mem_of_getElem? hat
          exact absurd rfl (hparts.2.2 fd (ended_subset hmem) fd hin)
        · intro h
          obtain ⟨e, he, _⟩ := h
          have hlen := (List.getElem?_eq_some_iff.mp he).1
          have hpolled := hp.polled
          have hnfds := hs.tabled.nfds
          rw [hs.tabled.fds, List.length_map, List.length_cons,
            List.length_map] at hnfds
          rw [List.length_tail] at hlen
          omega

theorem map_fst_filter {cs : List (Fd × ℕ)} {fds : List Fd} :
    (cs.filter fun c => c.1 ∉ fds).map Prod.fst =
      (cs.map Prod.fst).filter fun fd => fd ∉ fds := by
  rw [List.filter_map]
  rfl

/-- What is to be removed at the end is what the events have closed. -/
theorem Begins.removed_iff (hb : Begins g g₁ entries new) (hs : Settled g)
    (hh : Handles g₁ g₂ g.connections es.tail) {fd : Fd} :
    fd ∈ g₂.fdremoveset ↔ fd ∈ ended g.connections es.tail := by
  rw [hh.removed, hb.fdremoveset]
  exact ⟨fun h => h.resolve_left (OrdSet.card_eq_zero.mp hs.removed fd), .inr⟩

theorem Begins.removed_subset (hb : Begins g g₁ entries new) (hs : Settled g)
    (hh : Handles g₁ g₂ g.connections es.tail) {fd : Fd}
    (h : fd ∈ g₂.fdremoveset) : fd ∈ g.connections.map Prod.fst :=
  ended_subset ((hb.removed_iff hs hh).mp h)

/-- Without what has been closed, the listener and the connections are those
of the end of the round. -/
theorem Begins.remaining (hb : Begins g g₁ entries new) (hs : Settled g)
    (hh : Handles g₁ g₂ g.connections es.tail) :
    (g.sockfd :: g₁.connections.map Prod.fst).filter
        (fun fd => fd ∉ g₂.fdremoveset) =
      g₂.sockfd :: g₂.connections.map Prod.fst := by
  have hlistener : g.sockfd ∉ g₂.fdremoveset := fun hmem =>
    (List.nodup_cons.mp hs.tabled.once).1 (hb.removed_subset hs hh hmem)
  rw [List.filter_cons_of_pos (by simpa using hlistener), hh.connections,
    map_fst_filter, hh.sockfd, hb.sockfd]
  congr 1
  refine List.filter_congr fun fd _ => ?_
  rw [decide_eq_decide, hb.removed_iff hs hh]

theorem Begins.own_iff (hb : Begins g g₁ entries new) (hs : Settled g)
    (hh : Handles g₁ g₂ g.connections es.tail) :
    g₂.Own ↔ ∀ p ∈ g.connections.zip es.tail,
      Unmixed (g.pendingReads p.1.1) p.1.2 p.2 := by
  have hown : g₁.Own := by
    unfold Own
    rw [hb.handled]
    exact hs.tabled.own
  rw [hh.own, hb.pendingReads]
  exact ⟨And.right, fun h => ⟨hown, h⟩⟩

/-- Removing descriptors does not touch the rest. -/
theorem Begins.settled (hb : Begins g g₁ entries new)
    (hh : Handles g₁ g₂ g.connections es.tail) {fds : List (Option Fd)} {n : ℕ}
    (h : Tabled { g₂ with
      fds := fds
      nfds := n
      fdremoveset := OrdSet.empty }) :
    Settled { g₂ with
      fds := fds
      nfds := n
      fdremoveset := OrdSet.empty } := by
  have hsub : g₂.connections.Sublist g₁.connections := by
    rw [hh.connections]
    exact List.filter_sublist
  refine ⟨h, rfl, fun c hc => ?_, fun c hc => ?_, fun fd => ?_⟩
  · show c.2 < g₂.accepted
    rw [hh.accepted]
    exact hb.numbered c (hsub.subset hc)
  · show Tidy c.2 (g₂.pendingReads c.1)
    have hc₁ := hsub.subset hc
    by_cases hmem : c ∈ g.connections
    · exact hh.tidy h.own c hmem
    · -- it was accepted in this round, and nothing else was
      have honce := (List.nodup_cons.mp hb.once).2
      rw [hh.others c.1 fun hin => ?_]
      · exact hb.tidy c hc₁
      · rw [hb.connections] at hc₁
        rw [hb.connections, List.map_append] at honce
        have hnew := (List.mem_append.mp hc₁).resolve_left hmem
        exact absurd rfl ((List.nodup_append.mp honce).2.2 c.1 hin c.1
          (List.mem_map_of_mem hnew))
  · show Older g₂.accepted (g₂.pendingReads fd)
    rw [hh.accepted]
    exact hh.older hb.older fd

/-- The end of a round in which whoever is accepted joins the array. -/
theorem Begins.removefds_joined (hb : Begins g g₁ (new.map Prod.fst) new)
    (hs : Settled g) (hp : g.Possible es)
    (hh : Handles g₁ g₂ g.connections es.tail)
    (hjoined : joined es = new.length)
    (hadded : missed es = false) :
    ∃ g', g₂.removefds = .ok g' ∧ (g'.Tabled ↔ g.Sound es) ∧
      (g'.Tabled → Settled g') := by
  have hfds : g₂.fds = (g.sockfd :: g₁.connections.map Prod.fst).map some := by
    rw [hh.fds, hb.fds, hs.tabled.fds, hb.connections, List.map_append,
      ← List.map_append]
    rfl
  have hcount : (g.sockfd :: g₁.connections.map Prod.fst).length =
      g.nfds + joined es := by
    rw [hs.tabled.nfds, hs.tabled.fds, hb.connections, hjoined, List.length_map,
      List.length_cons, List.length_cons, List.length_map, List.length_map,
      List.length_append]
    omega
  obtain ⟨fds, hok, hlen, hiff⟩ := removefds_eq hfds
    (by rw [hh.nfds, hh.fds, hb.nfds]) hb.once (fun fd hfd => by
      rw [hb.connections, List.map_append]
      exact List.mem_cons_of_mem _
        (List.mem_append_left _ (hb.removed_subset hs hh hfd)))
  rw [hb.remaining hs hh] at hiff
  have hlast : (∃ j, ∀ (n : ℕ) (fd : Fd),
      (g.sockfd :: g₁.connections.map Prod.fst)[n]? = some fd →
        (fd ∈ g₂.fdremoveset ↔ j ≤ n)) ↔
      ∃ j ≤ g.nfds + joined es, ∀ n < g.nfds + joined es,
        EndsAt es n ↔ j ≤ n := by
    constructor
    · intro h
      obtain ⟨j, h⟩ := h
      refine ⟨min j (g.nfds + joined es), min_le_right _ _, fun n hn => ?_⟩
      have hlt : n < (g.sockfd :: g₁.connections.map Prod.fst).length := by omega
      have hat := List.getElem?_eq_getElem hlt
      rw [← hb.endsAt_iff hs hp hat, ← hb.removed_iff hs hh, h n _ hat]
      omega
    · intro h
      obtain ⟨j, _, h⟩ := h
      refine ⟨j, fun n fd hat => ?_⟩
      rw [hb.removed_iff hs hh, hb.endsAt_iff hs hp hat]
      exact h n (hcount ▸ (List.getElem?_eq_some_iff.mp hat).1)
  refine ⟨_, hok, ?_, hb.settled hh⟩
  constructor
  · intro h
    exact ⟨hadded, hlast.mp (hiff.mp h.fds), (hb.own_iff hs hh).mp h.own⟩
  · intro h
    have hsub : g₂.connections.Sublist g₁.connections := by
      rw [hh.connections]
      exact List.filter_sublist
    refine ⟨hiff.mpr (hlast.mpr h.last), hlen.symm, ?_,
      hb.order.sublist (hsub.map Prod.snd), (hb.own_iff hs hh).mpr h.unmixed⟩
    show (g₂.sockfd :: g₂.connections.map Prod.fst).Nodup
    rw [hh.sockfd, hb.sockfd]
    exact hb.once.sublist ((hsub.map Prod.fst).cons_cons _)

/-- A connection that is accepted and not added is missing in the end. -/
theorem Begins.removefds_missing (hb : Begins g g₁ [] new) (hs : Settled g)
    (hh : Handles g₁ g₂ g.connections es.tail) (hnew : new ≠ []) :
    ∃ g', g₂.removefds = .ok g' ∧ ¬ g'.Tabled := by
  have hfds : g₂.fds = (g.sockfd :: g.connections.map Prod.fst).map some := by
    rw [hh.fds, hb.fds, hs.tabled.fds]
    exact List.append_nil _
  obtain ⟨fds, hok, hlen, _⟩ := removefds_eq hfds
    (by rw [hh.nfds, hh.fds, hb.nfds]) hs.tabled.once
    (fun fd hfd => List.mem_cons_of_mem _ (hb.removed_subset hs hh hfd))
  have hopen := length_filter_notMem hb.once fun fd hfd => by
    rw [hb.connections, List.map_append]
    exact List.mem_cons_of_mem _
      (List.mem_append_left _ (hb.removed_subset hs hh hfd))
  rw [hb.remaining hs hh, hb.connections] at hopen
  refine ⟨_, hok, fun h => ?_⟩
  have hfds' : fds = (g₂.sockfd :: g₂.connections.map Prod.fst).map some := h.fds
  have hcard := (g₂.fdremoveset.nodup.subperm
    fun fd hfd => hb.removed_subset hs hh hfd).length_le
  have hcard : g₂.fdremoveset.card ≤ _ := hcard
  have hpos := List.length_pos_iff.mpr hnew
  rw [hfds', List.length_map, hopen] at hlen
  simp only [List.length_cons, List.length_map, List.length_append] at hlen hcard
  omega

/-- From its beginning to its end. -/
theorem Begins.round {Q : IbGateway → Prop} (hb : Begins g g₁ entries new)
    (hs : Settled g) (hp : g.Possible es)
    (heq : g.handleAll 0 es = g₁.handleAll 1 es.tail)
    (hrest : ∀ g₂, Handles g₁ g₂ g.connections es.tail →
      ∃ g', g₂.removefds = .ok g' ∧ Q g') :
    g.round es = .error .unending ∨ ∃ g', g.round es = .ok g' ∧ Q g' := by
  have hround : g.round es = (g₁.handleAll 1 es.tail).bind removefds := by
    rw [← heq]
    rfl
  rw [hround]
  rcases hb.handleAll_cases hs hp with herr | ⟨g₂, hok, hh⟩
  · exact .inl (by rw [herr]; rfl)
  · obtain ⟨g', hok', hq⟩ := hrest g₂ hh
    exact .inr ⟨g', by rw [hok]; exact hok', hq⟩

/-- A round keeps the table exactly if it is sound, and it does not touch
anything outside it. -/
theorem round_cases (hs : Settled g) (hp : g.Possible es) :
    g.round es = .error .unending ∨
    ∃ g', g.round es = .ok g' ∧ (g'.Tabled ↔ g.Sound es) ∧
      (g'.Tabled → Settled g') := by
  rcases listener_cases hs.tabled hp with
    ⟨heq, hjoined, hadded⟩ | ⟨newfd, hfresh, ⟨heq, hjoined, hadded⟩ |
      ⟨heq, hmissed⟩⟩
  · have hb : Begins g g (([] : List (Fd × ℕ)).map Prod.fst) [] :=
      begins_self hs
    exact hb.round hs hp heq fun g₂ hh =>
      hb.removefds_joined hs hp hh hjoined hadded
  · have hb : Begins g (g.join newfd) ([(newfd, g.accepted)].map Prod.fst)
      [(newfd, g.accepted)] := begins_join hs hfresh
    exact hb.round hs hp heq fun g₂ hh =>
      hb.removefds_joined hs hp hh hjoined hadded
  · have hb := begins_accept hs hfresh
    refine hb.round hs hp heq fun g₂ hh => ?_
    obtain ⟨g', hok, hnot⟩ := hb.removefds_missing hs hh (by simp)
    refine ⟨g', hok, ⟨fun h => absurd h hnot, fun h => ?_⟩,
      fun h => absurd h hnot⟩
    have hadded := h.added
    rw [hmissed] at hadded
    cases hadded

/-- Whatever happens to its connections, the gateway keeps the table right in
a run exactly if each round is sound. -/
theorem keepsTable_iff (sockfd : Fd) (rounds : List (List Event))
    (hpossible : AllCalls next Possible (listening sockfd) rounds) :
    KeepsTable sockfd rounds ↔
      AllSteps next Sound (listening sockfd) rounds := by
  have hnext : ∀ g es g', Possible g es → Settled g → next g es = some g' →
      (g'.Tabled ↔ g.Sound es) ∧ (g'.Tabled → Settled g') := by
    intro g es g' hp hs hn
    unfold next at hn
    rcases round_cases hs hp with herr | ⟨g₁, hok, hiff⟩
    · rw [herr] at hn
      cases hn
    · rw [hok] at hn
      injection hn with hn
      exact hn ▸ hiff
  have hsettled := settled_listening sockfd
  have hiff := hpossible.allStates_iff
    (fun g es g' hp hs hn => (hnext g es g' hp hs hn).1)
    (fun g es g' hp hs hn => (hnext g es g' hp hs hn).2)
    hsettled hsettled.tabled
  rw [← hiff]
  refine ⟨fun h => h.tabled, fun h => ⟨h, ?_⟩⟩
  refine AllCalls.of_allStates (fun g es hp hs => ?_)
    (fun g es g' hp hs hn => (hnext g es g' hp hs hn).2) hpossible hsettled h
  rcases round_cases hs hp with herr | ⟨g', hok, _⟩
  · unfold Inside
    rw [herr]
    exact fun heq => by cases heq
  · unfold Inside
    rw [hok]
    exact fun heq => by cases heq

/-- Two connections. In one round a package of the first is completed and the
second hangs up, and then a third gets the descriptor of the second. -/
def secondLeaves : List (List Event) :=
  [[.accept (some 5) true], [.accept (some 6) true],
    [.quiet, .reads [[9, 0, 0, 0], [0, 0, 0, 0, 7]] .again, .hangup],
    [.accept (some 6) true]]

theorem secondLeaves_keepsTable : KeepsTable 4 secondLeaves :=
  (keepsTable_iff 4 secondLeaves (by decide +kernel)).mpr (by decide +kernel)

/-- Two connections, and the first comes to its end. -/
def firstLeaves : List (List Event) :=
  [[.accept (some 5) true], [.accept (some 6) true], [.quiet, .reads [] .eof]]

/-- A connection sends four bytes and hangs up, and the next one under the
same descriptor sends five. -/
def bytesLeft : List (List Event) :=
  [[.accept (some 5) true], [.quiet, .reads [[9, 0, 0, 0]] .again],
    [.quiet, .hangup], [.accept (some 5) true],
    [.quiet, .reads [[0, 0, 0, 0, 7]] .again]]

/-- In the one run the second connection is open and not polled any more, in
the other the second is said to have sent a package that the first began. -/
theorem first_leaves_table : AllCalls next Possible (listening 4) firstLeaves ∧
    ¬ KeepsTable 4 firstLeaves ∧
    AllCalls next Possible (listening 4) bytesLeft ∧
    ¬ KeepsTable 4 bytesLeft := by
  refine ⟨by decide +kernel, fun h => ?_, by decide +kernel, fun h => ?_⟩
  · have hend : (run next (listening 4) firstLeaves).map (fun g =>
        (g.fds, g.sockfd, g.connections)) = some ([some 4, none], 4, [(6, 1)]) := by
      decide +kernel
    obtain ⟨g, hrun, hg⟩ := Option.map_eq_some_iff.mp hend
    have hfds := (allStates_iff_run.mp h.tabled _ List.prefix_rfl g hrun).fds
    injection hg with hentries hg
    injection hg with hsockfd hopen
    rw [hentries, hsockfd, hopen] at hfds
    revert hfds
    decide
  · have hend : (run next (listening 4) bytesLeft).map (fun g => g.handled) =
        some [⟨1, [⟨9, 0⟩, ⟨0, 0⟩, ⟨0, 0⟩, ⟨0, 0⟩, ⟨0, 1⟩, ⟨0, 1⟩, ⟨0, 1⟩,
          ⟨0, 1⟩, ⟨7, 1⟩]⟩] := by
      decide +kernel
    obtain ⟨g, hrun, hg⟩ := Option.map_eq_some_iff.mp hend
    have hown := (allStates_iff_run.mp h.tabled _ List.prefix_rfl g hrun).own
    rw [hg] at hown
    exact absurd (hown _ List.mem_cons_self ⟨9, 0⟩ List.mem_cons_self)
      (by decide)

end IbGateway

end Infinisql.Inbound
