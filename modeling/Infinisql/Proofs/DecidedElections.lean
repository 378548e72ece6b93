import Infinisql.Proofs.Elections

/-!
# What is decided can come undone

A majority ends an election, says the docstring of `tally`, but `tally` goes on
counting after it. Since `hasMajority` asks for no more than a lead among those
who have voted, a late vote for the runner-up can take the lead away, and the
next one can give it to somebody else.

The counting itself is right: whatever votes arrive, an election holds the
first vote of each registered voter and no other one, so what it says of the
result can be read off the votes. `staysDecided_iff` then says when a decision
lasts. Only a vote that makes a tie undoes it, and there is one exactly if the
election goes on counting where a candidate is one vote behind. Among three
nodes that cannot happen.
-/

namespace Infinisql.Manager

open Infinisql.Lib

variable {Id : Type} [LinearOrder Id] {nodes : OrdSet Id} {started : ℕ}
  {votes early late : List (Vote Id)} {v : Vote Id} {e : Election Id}
  {winner candidate : Id}

/-! ## Ballots -/

theorem ballot_append (x : Id) : ballot (votes ++ [v]) x =
    (ballot votes x).or (if v.voter = x then some v.candidate else none) := by
  unfold ballot
  rw [List.find?_append]
  cases votes.find? fun v => decide (v.voter = x) with
  | some w => rfl
  | none =>
      by_cases hx : v.voter = x
      · rw [if_pos hx, List.find?_cons_of_pos (by simpa using hx)]
        rfl
      · rw [if_neg hx, List.find?_cons_of_neg (by simpa using hx)]
        rfl

theorem ballot_append_of_ne {x : Id} (h : v.voter ≠ x) :
    ballot (votes ++ [v]) x = ballot votes x := by
  rw [ballot_append, if_neg h, Option.or_none]

/-- A second vote is no ballot. -/
theorem ballot_append_of_some (h : ballot votes v.voter ≠ none) (x : Id) :
    ballot (votes ++ [v]) x = ballot votes x := by
  by_cases hx : v.voter = x
  · rw [ballot_append, ← hx]
    cases hb : ballot votes v.voter with
    | none => exact absurd hb h
    | some c => rfl
  · exact ballot_append_of_ne hx

theorem ballot_append_self (h : ballot votes v.voter = none) :
    ballot (votes ++ [v]) v.voter = some v.candidate := by
  rw [ballot_append, if_pos rfl, h, Option.none_or]

theorem mem_turnout {x : Id} :
    x ∈ turnout nodes votes ↔ x ∈ nodes ∧ ballot votes x ≠ none := by
  rw [turnout, Finset.mem_filter, List.mem_toFinset, Option.isSome_iff_ne_none]
  exact Iff.rfl

theorem mem_supporters {x : Id} : x ∈ supporters nodes votes candidate ↔
    x ∈ nodes ∧ ballot votes x = some candidate := by
  rw [supporters, Finset.mem_filter, List.mem_toFinset]
  exact Iff.rfl

/-- The vote is the first one of a registered voter. -/
def IsBallot (nodes : OrdSet Id) (votes : List (Vote Id)) (v : Vote Id) : Prop :=
  v.voter ∈ nodes ∧ ballot votes v.voter = none

theorem IsBallot.turnout (h : IsBallot nodes votes v) :
    turnout nodes (votes ++ [v]) = insert v.voter (turnout nodes votes) := by
  ext x
  rw [Finset.mem_insert, mem_turnout, mem_turnout]
  by_cases hx : v.voter = x
  · subst hx
    rw [ballot_append_self h.2]
    simp [h.1]
  · rw [ballot_append_of_ne hx]
    simp [Ne.symm hx]

theorem IsBallot.supporters_self (h : IsBallot nodes votes v) :
    supporters nodes (votes ++ [v]) v.candidate =
      insert v.voter (supporters nodes votes v.candidate) := by
  ext x
  rw [Finset.mem_insert, mem_supporters, mem_supporters]
  by_cases hx : v.voter = x
  · subst hx
    rw [ballot_append_self h.2]
    simp [h.1]
  · rw [ballot_append_of_ne hx]
    simp [Ne.symm hx]

theorem IsBallot.supporters_of_ne (h : IsBallot nodes votes v)
    (hne : v.candidate ≠ candidate) :
    supporters nodes (votes ++ [v]) candidate =
      supporters nodes votes candidate := by
  ext x
  rw [mem_supporters, mem_supporters]
  by_cases hx : v.voter = x
  · subst hx
    rw [ballot_append_self h.2, h.2]
    simp [hne]
  · rw [ballot_append_of_ne hx]

theorem IsBallot.card_turnout (h : IsBallot nodes votes v) :
    (Manager.turnout nodes (votes ++ [v])).card =
      (Manager.turnout nodes votes).card + 1 := by
  rw [h.turnout, Finset.card_insert_of_notMem]
  exact fun hmem => (mem_turnout.mp hmem).2 h.2

theorem IsBallot.card_supporters (h : IsBallot nodes votes v) :
    (supporters nodes (votes ++ [v]) v.candidate).card =
      (supporters nodes votes v.candidate).card + 1 := by
  rw [h.supporters_self, Finset.card_insert_of_notMem]
  intro hmem
  have hb := (mem_supporters.mp hmem).2
  rw [h.2] at hb
  cases hb

/-- No other vote changes the result. -/
theorem result_of_not_isBallot (h : ¬ IsBallot nodes votes v) :
    turnout nodes (votes ++ [v]) = turnout nodes votes ∧
      ∀ c, supporters nodes (votes ++ [v]) c = supporters nodes votes c := by
  have hsame : ∀ x ∈ nodes, ballot (votes ++ [v]) x = ballot votes x := by
    intro x hx
    by_cases hv : v.voter = x
    · exact ballot_append_of_some (fun hb => h ⟨hv ▸ hx, hb⟩) x
    · exact ballot_append_of_ne hv
  constructor
  · ext x
    rw [mem_turnout, mem_turnout]
    exact and_congr_right fun hx => by rw [hsame x hx]
  · intro c
    ext x
    rw [mem_supporters, mem_supporters]
    exact and_congr_right fun hx => by rw [hsame x hx]

/-! ## The count -/

theorem outcome_append : outcome nodes started (votes ++ [v]) =
    (outcome nodes started votes).tally nodes v :=
  List.foldl_concat _ _ _ _

/-- A vote counts if it is a ballot. -/
theorem CountsBallots.accepts_iff (h : CountsBallots nodes votes e) :
    Accepts nodes e v ↔ IsBallot nodes votes v := by
  rw [Accepts, h.voters, mem_turnout, IsBallot]
  tauto

theorem CountsBallots.tally (h : CountsBallots nodes votes e) :
    CountsBallots nodes (votes ++ [v]) (e.tally nodes v) := by
  rcases tally_cases nodes e v with ⟨hnot, heq⟩ | ⟨hacc, heq⟩
  · obtain ⟨hturn, hsupp⟩ := result_of_not_isBallot (h.accepts_iff.not.mp hnot)
    rw [heq]
    refine ⟨fun id => ?_, fun c => ?_⟩
    · rw [hturn]
      exact h.voters id
    · rw [hsupp c]
      exact h.votes c
  · have hb := h.accepts_iff.mp hacc
    rw [heq]
    refine ⟨fun id => ?_, fun c => ?_⟩
    · show id ∈ e.voters.insert v.voter ↔ _
      rw [hb.turnout, OrdSet.mem_insert, Finset.mem_insert, h.voters]
    · show ((e.votes.set v.candidate _).get? c).getD 0 = _
      by_cases hc : v.candidate = c
      · subst hc
        rw [Dict.get?_set_self, Option.getD_some, hb.card_supporters, h.votes]
      · rw [Dict.get?_set_of_ne (Ne.symm hc), hb.supporters_of_ne hc]
        exact h.votes c

theorem countsBallots_new : CountsBallots nodes [] (Election.new nodes started) := by
  refine ⟨fun id => ?_, fun c => ?_⟩
  · rw [mem_turnout]
    exact ⟨fun h => absurd h OrdSet.not_mem_empty, fun h => absurd rfl h.2⟩
  · have hnone : supporters nodes [] c = ∅ := by
      ext x
      rw [mem_supporters]
      exact ⟨fun h => absurd h.2 (by simp [ballot]),
        fun h => absurd h (Finset.notMem_empty x)⟩
    rw [hnone, Finset.card_empty]
    cases hget : (Election.new nodes started).votes.get? c with
    | none => rfl
    | some n =>
        obtain ⟨id, _, heq⟩ := List.mem_map.mp (Dict.mem_of_get? hget)
        injection heq with _ hn
        exact hn.symm

/-- After any votes, whoever they are from and for. -/
theorem countsBallots_outcome (nodes : OrdSet Id) (started : ℕ)
    (votes : List (Vote Id)) :
    CountsBallots nodes votes (outcome nodes started votes) := by
  induction votes using List.reverseRecOn with
  | nil => exact countsBallots_new
  | append_singleton votes v ih =>
      rw [outcome_append]
      exact ih.tally

/-! ## The decision -/

theorem CountsBallots.card_voters (h : CountsBallots nodes votes e) :
    e.voters.card = (turnout nodes votes).card := by
  have hset : turnout nodes votes = e.voters.toList.toFinset := by
    ext id
    rw [← h.voters, List.mem_toFinset]
    exact Iff.rfl
  rw [hset, List.toFinset_card_of_nodup e.voters.nodup]
  rfl

/-- Where a majority has voted, somebody is supported. -/
theorem exists_supporter (h : nodes.card < 2 * (turnout nodes votes).card) :
    ∃ c, 0 < (supporters nodes votes c).card := by
  have hpos : 0 < (turnout nodes votes).card := by omega
  obtain ⟨x, hx⟩ := Finset.card_pos.mp hpos
  obtain ⟨hmem, hb⟩ := mem_turnout.mp hx
  obtain ⟨c, hc⟩ := Option.ne_none_iff_exists'.mp hb
  exact ⟨c, Finset.card_pos.mpr ⟨x, mem_supporters.mpr ⟨hmem, hc⟩⟩⟩

theorem Decided.pos (h : Decided nodes votes winner) :
    0 < (supporters nodes votes winner).card := by
  obtain ⟨c, hc⟩ := exists_supporter h.majority
  by_cases hw : c = winner
  · exact hw ▸ hc
  · exact lt_trans hc (h.ahead c hw)

theorem CountsBallots.count_of_mem (h : CountsBallots nodes votes e)
    {p : Id × ℕ} (hp : p ∈ e.votes.items) :
    p.2 = (supporters nodes votes p.1).card := by
  rw [← h.votes, Dict.get?_of_mem hp, Option.getD_some]

theorem CountsBallots.mem_of_pos (h : CountsBallots nodes votes e)
    (hpos : 0 < (supporters nodes votes candidate).card) :
    (candidate, (supporters nodes votes candidate).card) ∈ e.votes.items := by
  rw [← h.votes] at hpos ⊢
  cases hget : e.votes.get? candidate with
  | none =>
      rw [hget] at hpos
      exact absurd hpos (lt_irrefl 0)
  | some n => exact Dict.mem_of_get? hget

/-- Who is ahead of all others is the first of the most common. -/
theorem CountsBallots.hasMajority (h : CountsBallots nodes votes e)
    (hdec : Decided nodes votes winner) :
    e.hasMajority nodes = true ∧ e.getWinner = some winner := by
  have hmem := h.mem_of_pos hdec.pos
  have hmaj := hdec.majority
  unfold Election.hasMajority Election.getWinner
  rw [h.card_voters, if_neg (by omega)]
  cases hmost : mostCommon e.votes with
  | nil =>
      have hnil := mem_mostCommon.mpr hmem
      rw [hmost] at hnil
      cases hnil
  | cons p l =>
      have hp : p ∈ e.votes.items :=
        mem_mostCommon.mp (hmost ▸ List.mem_cons_self)
      have hwin : p.1 = winner := by
        by_contra hne
        have hle : _ ≤ p.2 := mostCommon_head hmost hmem
        have hlt := hdec.ahead p.1 hne
        rw [← h.count_of_mem hp] at hlt
        exact absurd hlt (not_lt.mpr hle)
      refine ⟨?_, congrArg some hwin⟩
      cases l with
      | nil => rfl
      | cons q l =>
          refine decide_eq_true ((mostCommon_ahead hmost).mpr ?_)
          intro r hr hne
          rw [h.count_of_mem hr, h.count_of_mem hp, hwin]
          exact hdec.ahead r.1 (hwin ▸ hne)

omit [LinearOrder Id] in
/-- With a majority there is a first of the most common, and no other entry
has as high a count. -/
theorem hasMajority_cases (h : e.hasMajority nodes = true) :
    nodes.card < 2 * e.voters.card ∧ ∃ p ∈ e.votes.items,
      e.getWinner = some p.1 ∧ (∀ r ∈ e.votes.items, r.2 ≤ p.2) ∧
      ∀ r ∈ e.votes.items, r.1 ≠ p.1 → r.2 < p.2 := by
  unfold Election.hasMajority at h
  unfold Election.getWinner
  split at h
  · cases h
  · next hhalf =>
      refine ⟨by omega, ?_⟩
      cases hmost : mostCommon e.votes with
      | nil =>
          rw [hmost] at h
          cases h
      | cons p l =>
          rw [hmost] at h
          refine ⟨p, mem_mostCommon.mp (hmost ▸ List.mem_cons_self), rfl,
            fun r hr => mostCommon_head hmost hr, ?_⟩
          cases l with
          | nil =>
              intro r hr hne
              have hr := mem_mostCommon.mpr hr
              rw [hmost, List.mem_singleton] at hr
              exact absurd (congrArg Prod.fst hr) hne
          | cons q l => exact (mostCommon_ahead hmost).mp (of_decide_eq_true h)

theorem CountsBallots.decided (h : CountsBallots nodes votes e)
    (hmaj : e.hasMajority nodes = true) :
    ∃ w, e.getWinner = some w ∧ Decided nodes votes w := by
  obtain ⟨hhalf, p, hp, hwin, hhead, hahead⟩ := hasMajority_cases hmaj
  rw [h.card_voters] at hhalf
  refine ⟨p.1, hwin, hhalf, fun c hc => ?_⟩
  rw [← h.count_of_mem hp]
  rcases Nat.eq_zero_or_pos (supporters nodes votes c).card with hzero | hpos
  · -- somebody has a supporter, and the first has at least as many
    obtain ⟨d, hd⟩ := exists_supporter hhalf
    rw [hzero]
    exact lt_of_lt_of_le hd (hhead _ (h.mem_of_pos hd))
  · exact hahead _ (h.mem_of_pos hpos) hc

/-! ## One more vote -/

/-- A decision survives a vote exactly if the vote does not make a tie. -/
theorem Decided.append_iff (h : Decided nodes votes winner) :
    Decided nodes (votes ++ [v]) winner ↔
      (IsBallot nodes votes v → v.candidate ≠ winner →
        (supporters nodes votes v.candidate).card + 1 <
          (supporters nodes votes winner).card) := by
  by_cases hb : IsBallot nodes votes v
  · constructor
    · intro hdec _ hne
      have hahead := hdec.ahead v.candidate hne
      rw [hb.card_supporters, hb.supporters_of_ne hne] at hahead
      exact hahead
    · intro hbehind
      have hmaj := h.majority
      refine ⟨by rw [hb.card_turnout]; omega, fun c hc => ?_⟩
      have hahead := h.ahead c hc
      by_cases hwin : v.candidate = winner
      · subst hwin
        rw [hb.card_supporters, hb.supporters_of_ne (Ne.symm hc)]
        omega
      · rw [hb.supporters_of_ne hwin]
        by_cases hcand : v.candidate = c
        · subst hcand
          rw [hb.card_supporters]
          exact hbehind hb hc
        · rw [hb.supporters_of_ne hcand]
          exact hahead
  · obtain ⟨hturn, hsupp⟩ := result_of_not_isBallot hb
    refine ⟨fun _ hb' => absurd hb' hb, fun _ => ⟨?_, fun c hc => ?_⟩⟩
    · rw [hturn]
      exact h.majority
    · rw [hsupp, hsupp]
      exact h.ahead c hc

/-- So it survives all of them where none does. -/
theorem NoneCatchesUp.decided (h : NoneCatchesUp nodes votes)
    (hdec : Decided nodes early winner) (late : List (Vote Id)) :
    early ++ late <+: votes → Decided nodes (early ++ late) winner := by
  induction late using List.reverseRecOn with
  | nil =>
      intro _
      rw [List.append_nil]
      exact hdec
  | append_singleton late v ih =>
      intro hpre
      rw [← List.append_assoc] at hpre ⊢
      have hlate := ih ((List.prefix_append _ _).trans hpre)
      exact hlate.append_iff.mpr fun hb hne =>
        h _ v winner hpre hlate hb.1 hb.2 hne

/-- An election stays decided, whatever votes it is given, exactly if none of
those that count after the decision draws level with the winner. -/
theorem staysDecided_iff (nodes : OrdSet Id) (started : ℕ)
    (votes : List (Vote Id)) :
    StaysDecided nodes started votes ↔ NoneCatchesUp nodes votes := by
  have hcounts := countsBallots_outcome nodes started
  constructor
  · intro h early v w hpre hdec hreg hfirst
    obtain ⟨hmaj, hwin⟩ := (hcounts early).hasMajority hdec
    obtain ⟨hmaj', hwin'⟩ := h.settled early [v] hpre hmaj
    obtain ⟨w', hw', hdec'⟩ := (hcounts (early ++ [v])).decided hmaj'
    rw [hwin', hwin] at hw'
    injection hw' with hw'
    subst hw'
    exact hdec.append_iff.mp hdec' ⟨hreg, hfirst⟩
  · intro h
    refine ⟨fun early _ => hcounts early, fun early late hpre hmaj => ?_⟩
    obtain ⟨w, hw, hdec⟩ := (hcounts early).decided hmaj
    rw [hw]
    exact (hcounts (early ++ late)).hasMajority (h.decided hdec late hpre)

/-- Five nodes, the addresses they vote from. -/
def fiveNodes : OrdSet NodeId where
  toList := ["10.0.0.1", "10.0.0.2", "10.0.0.3", "10.0.0.4", "10.0.0.5"].map
    NodeId.at
  nodup := by decide +kernel

/-- The first two vote for the fourth and all others for the fifth. -/
def lateVotes : List (Vote NodeId) :=
  [⟨.at "10.0.0.4", .at "10.0.0.1", 0⟩, ⟨.at "10.0.0.4", .at "10.0.0.2", 0⟩,
    ⟨.at "10.0.0.5", .at "10.0.0.3", 0⟩, ⟨.at "10.0.0.5", .at "10.0.0.4", 0⟩,
    ⟨.at "10.0.0.5", .at "10.0.0.5", 0⟩]

/-- The third vote decides the election for the fourth node, the next one
leaves it undecided, and the last one decides it for the fifth. -/
theorem late_votes_overturn :
    (outcome fiveNodes 0 (lateVotes.take 3)).ready fiveNodes 11 = true ∧
    (outcome fiveNodes 0 (lateVotes.take 3)).getWinner =
      some (.at "10.0.0.4") ∧
    (outcome fiveNodes 0 (lateVotes.take 4)).ready fiveNodes 11 = false ∧
    (outcome fiveNodes 0 lateVotes).ready fiveNodes 11 = true ∧
    (outcome fiveNodes 0 lateVotes).getWinner = some (.at "10.0.0.5") ∧
    ¬ StaysDecided fiveNodes 0 lateVotes := by
  have hthird : (outcome fiveNodes 0 (lateVotes.take 3)).hasMajority
      fiveNodes = true := by decide +kernel
  refine ⟨by decide +kernel, by decide +kernel, by decide +kernel,
    by decide +kernel, by decide +kernel, fun h => ?_⟩
  have hwin := (h.settled (lateVotes.take 3) (lateVotes.drop 3)
    (by rw [List.take_append_drop]) hthird).2
  rw [List.take_append_drop] at hwin
  revert hwin
  decide +kernel

/-! ## Small clusters -/

/-- No voter has two candidates. -/
theorem card_supporters_add_le {c d : Id} (h : c ≠ d) :
    (supporters nodes votes c).card + (supporters nodes votes d).card ≤
      (turnout nodes votes).card := by
  rw [← Finset.card_union_of_disjoint]
  · refine Finset.card_le_card fun x hx => ?_
    rcases Finset.mem_union.mp hx with hx | hx
    · obtain ⟨hmem, hb⟩ := mem_supporters.mp hx
      exact mem_turnout.mpr ⟨hmem, by simp [hb]⟩
    · obtain ⟨hmem, hb⟩ := mem_supporters.mp hx
      exact mem_turnout.mpr ⟨hmem, by simp [hb]⟩
  · refine Finset.disjoint_left.mpr fun x hc hd => h ?_
    have hc := (mem_supporters.mp hc).2
    rw [(mem_supporters.mp hd).2] at hc
    injection hc with hc
    exact hc.symm

/-- A lead over somebody who has voted otherwise is a lead over a vote. -/
theorem Decided.two_le (h : Decided nodes votes winner)
    (hother : (supporters nodes votes winner).card <
      (turnout nodes votes).card) :
    2 ≤ (supporters nodes votes winner).card := by
  obtain ⟨x, hx, hnot⟩ := Finset.exists_mem_notMem_of_card_lt_card hother
  obtain ⟨hmem, hb⟩ := mem_turnout.mp hx
  obtain ⟨c, hc⟩ := Option.ne_none_iff_exists'.mp hb
  have hsupp : x ∈ supporters nodes votes c := mem_supporters.mpr ⟨hmem, hc⟩
  have hne : c ≠ winner := fun heq => hnot (heq ▸ hsupp)
  have hpos := Finset.card_pos.mpr ⟨x, hsupp⟩
  have hahead := h.ahead c hne
  omega

/-- Among three nodes nobody catches up: a majority is two votes, they are for
the same candidate, and one vote is left. -/
theorem noneCatchesUp_of_card_le (h : nodes.card ≤ 3) :
    NoneCatchesUp nodes votes := by
  intro early v w _ hdec hreg hfirst hne
  have hball : IsBallot nodes early v := ⟨hreg, hfirst⟩
  have hleft : (turnout nodes (early ++ [v])).card ≤ nodes.card := by
    rw [OrdSet.card, ← List.toFinset_card_of_nodup nodes.nodup]
    exact Finset.card_filter_le _ _
  rw [hball.card_turnout] at hleft
  have hmaj := hdec.majority
  have hsum : _ ≤ (turnout nodes early).card := card_supporters_add_le hne
  have hahead := hdec.ahead v.candidate hne
  have htwo : 2 ≤ (supporters nodes early w).card := by
    by_contra hone
    exact hone (hdec.two_le (by omega))
  omega

end Infinisql.Manager
