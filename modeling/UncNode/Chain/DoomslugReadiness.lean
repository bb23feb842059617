import Mathlib
import UncNode.Chain.DoomslugApprovals

/-!
# Doomslug — readiness against the block validator

A node produces a block when `ready_to_produce_block` finds that the tracker of its tip passed
the threshold; the other nodes accept the block's approvals through the stateless
`Doomslug::can_approved_block_be_produced`. The two compute the thresholds differently: the
tracker compares strictly against `total * 2 / 3` over its pledge map and lets a zero total of
the next epoch pass, while the validator sums along the producer list, skips slashed producers,
and lets a zero threshold of either epoch pass.

Every tracker keeps the pledge map, totals and mode it was made with (`MadeFrom`); when all
approval messages carry one list of distinct, non-slashed producers, every tracker is made from
that list's map (`Doomslug.TrackersMadeFrom`), and its sums over the witness are the validator's
sums along the list (`sum_pledges_of_mem_witness`).

* `canApprovedBlockBeProduced_of_readyToProduceBlock`: in every state with accounted trackers
  made from the list, in `TwoThirds` mode, readiness implies the validator's check;
* **`ready_block_passes_approval_check`**: so in every state a run from `Doomslug::new` reaches.
-/

set_option autoImplicit false

namespace Unc

variable {A H : Type} [DecidableEq A]

/-- Summing a function over the members of `K` along a list `l` that holds each of them once is
summing it over `K`. -/
theorem sum_map_ite_mem {α : Type} [DecidableEq α] {l K : List α} (hl : l.Nodup) (hK : K.Nodup)
    (hsub : K ⊆ l) (g : α → Nat) :
    (l.map fun x => if x ∈ K then g x else 0).sum = (K.map g).sum := by
  have hfilter : l.toFinset.filter (· ∈ K) = K.toFinset := by
    ext x
    simp only [Finset.mem_filter, List.mem_toFinset]
    exact ⟨fun h => h.2, fun h => ⟨hsub h, h⟩⟩
  rw [← List.sum_toFinset _ hl, ← Finset.sum_filter, hfilter, List.sum_toFinset _ hK]

/-- The entry of one producer in the pledge map. -/
def pledgeEntry (p : ApprovalPledge A × Bool) : Sigma fun _ : A => Nat × Nat :=
  ⟨p.1.accountId, (p.1.pledgeThisEpoch, p.1.pledgeNextEpoch)⟩

section PledgeMap

variable {pledges : List (ApprovalPledge A × Bool)}

/-- Without slashed producers and with distinct accounts, each producer's `insert` adds a fresh
entry in front. -/
theorem entries_pledgeMap (hnodup : (pledges.map fun p => p.1.accountId).Nodup)
    (hclean : ∀ p ∈ pledges, p.2 = false) :
    (pledgeMap pledges).entries = (pledges.map pledgeEntry).reverse := by
  unfold pledgeMap
  suffices h : ∀ (m : AList fun _ : A => Nat × Nat) (ps : List (ApprovalPledge A × Bool)),
      (ps.map fun p => p.1.accountId).Nodup → (∀ p ∈ ps, p.2 = false) →
      (∀ p ∈ ps, p.1.accountId ∉ m) →
      (ps.foldl (fun m p => if p.2 then m
        else m.insert p.1.accountId (p.1.pledgeThisEpoch, p.1.pledgeNextEpoch)) m).entries =
        (ps.map pledgeEntry).reverse ++ m.entries by
    simpa using h ∅ pledges hnodup hclean (by simp)
  intro m ps
  induction ps generalizing m with
  | nil => simp
  | cons p ps ih =>
    intro hnd hcl hfresh
    simp only [List.map_cons, List.nodup_cons, List.mem_map] at hnd
    have hp : p.2 = false := hcl p (by simp)
    have hm : p.1.accountId ∉ m := hfresh p (by simp)
    have := ih (m.insert p.1.accountId (p.1.pledgeThisEpoch, p.1.pledgeNextEpoch)) hnd.2
      (fun q hq => hcl q (by simp [hq]))
      (fun q hq hmem => by
        rcases (AList.mem_insert _).mp hmem with heq | hmem
        · exact hnd.1 ⟨q, hq, heq⟩
        · exact hfresh q (by simp [hq]) hmem)
    simp only [List.foldl_cons, hp, Bool.false_eq_true, if_false] at this ⊢
    rw [this, AList.entries_insert_of_notMem hm]
    simp [pledgeEntry]

theorem sumThisEpoch_pledgeMap (hnodup : (pledges.map fun p => p.1.accountId).Nodup)
    (hclean : ∀ p ∈ pledges, p.2 = false) :
    sumThisEpoch (pledgeMap pledges) = (pledges.map fun p => p.1.pledgeThisEpoch).sum := by
  rw [sumThisEpoch, entries_pledgeMap hnodup hclean, List.map_reverse, List.sum_reverse,
    List.map_map]
  rfl

theorem sumNextEpoch_pledgeMap (hnodup : (pledges.map fun p => p.1.accountId).Nodup)
    (hclean : ∀ p ∈ pledges, p.2 = false) :
    sumNextEpoch (pledgeMap pledges) = (pledges.map fun p => p.1.pledgeNextEpoch).sum := by
  rw [sumNextEpoch, entries_pledgeMap hnodup hclean, List.map_reverse, List.sum_reverse,
    List.map_map]
  rfl

theorem mem_pledgeMap (hnodup : (pledges.map fun p => p.1.accountId).Nodup)
    (hclean : ∀ p ∈ pledges, p.2 = false) (a : A) :
    a ∈ pledgeMap pledges ↔ a ∈ pledges.map fun p => p.1.accountId := by
  rw [AList.mem_keys, AList.keys, entries_pledgeMap hnodup hclean, List.keys, List.map_reverse,
    List.mem_reverse, List.map_map]
  rfl

theorem pledgesOf_pledgeMap (hnodup : (pledges.map fun p => p.1.accountId).Nodup)
    (hclean : ∀ p ∈ pledges, p.2 = false) {p : ApprovalPledge A × Bool} (hp : p ∈ pledges) :
    pledgesOf (pledgeMap pledges) p.1.accountId = (p.1.pledgeThisEpoch, p.1.pledgeNextEpoch) := by
  have hmem : pledgeEntry p ∈ (pledgeMap pledges).entries := by
    rw [entries_pledgeMap hnodup hclean, List.mem_reverse]
    exact List.mem_map_of_mem hp
  have hlookup := List.mem_dlookup (pledgeMap pledges).nodupKeys hmem
  simp only [pledgesOf, AList.lookup]
  rw [Option.mem_def.mp hlookup]
  rfl

/-- Along the producer list, the pledges of the accounts of a witness add up to the witness's sum
over the pledge map. -/
theorem sum_pledges_of_mem_witness (hnodup : (pledges.map fun p => p.1.accountId).Nodup)
    (hclean : ∀ p ∈ pledges, p.2 = false) (W : AList fun _ : A => Approval A H)
    (hW : ∀ a ∈ W, a ∈ pledgeMap pledges) (e : Nat × Nat → Nat) :
    (pledges.map fun p =>
        if p.1.accountId ∈ W then e (p.1.pledgeThisEpoch, p.1.pledgeNextEpoch) else 0).sum =
      keySum (fun a => e (pledgesOf (pledgeMap pledges) a)) W := by
  have hcongr : (pledges.map fun p =>
        if p.1.accountId ∈ W then e (p.1.pledgeThisEpoch, p.1.pledgeNextEpoch) else 0) =
      (pledges.map fun p => p.1.accountId).map fun a =>
        if a ∈ W.keys then e (pledgesOf (pledgeMap pledges) a) else 0 := by
    rw [List.map_map]
    refine List.map_congr_left fun p hp => ?_
    simp only [Function.comp_apply, AList.mem_keys, pledgesOf_pledgeMap hnodup hclean hp]
  rw [hcongr, sum_map_ite_mem hnodup W.keys_nodup
    (fun a ha => (mem_pledgeMap hnodup hclean a).mp (hW a (AList.mem_keys.mpr ha)))]
  rfl

end PledgeMap

/-- The `approvals` of a block built from a witness: `Some` exactly for the producers in it, in
the order of the producer list. -/
def approvalsOf (pledges : List (ApprovalPledge A × Bool)) (W : AList fun _ : A => Approval A H) :
    List Bool :=
  pledges.map fun p => decide (p.1.accountId ∈ W)

/-- The `(pledge_this_epoch, pledge_next_epoch, is_slashed)` triples of the producers. -/
def pledgeTriples (pledges : List (ApprovalPledge A × Bool)) : List (Nat × Nat × Bool) :=
  pledges.map fun p => (p.1.pledgeThisEpoch, p.1.pledgeNextEpoch, p.2)

theorem canApprovedBlockBeProduced_approvalsOf {pledges : List (ApprovalPledge A × Bool)}
    (hclean : ∀ p ∈ pledges, p.2 = false) (W : AList fun _ : A => Approval A H)
    (h1 : (pledges.map fun p => p.1.pledgeThisEpoch).sum * 2 / 3 <
      (pledges.map fun p => if p.1.accountId ∈ W then p.1.pledgeThisEpoch else 0).sum)
    (h2 : (pledges.map fun p => p.1.pledgeNextEpoch).sum * 2 / 3 <
        (pledges.map fun p => if p.1.accountId ∈ W then p.1.pledgeNextEpoch else 0).sum ∨
      (pledges.map fun p => p.1.pledgeNextEpoch).sum = 0) :
    canApprovedBlockBeProduced .twoThirds (approvalsOf pledges W) (pledgeTriples pledges) = true := by
  have hfilter : ((approvalsOf pledges W).zip (pledgeTriples pledges)).filter (fun x => !x.2.2.2) =
      pledges.map fun p => (decide (p.1.accountId ∈ W), p.1.pledgeThisEpoch, p.1.pledgeNextEpoch, p.2) := by
    rw [approvalsOf, pledgeTriples, List.zip_map']
    refine List.filter_eq_self.mpr fun x hx => ?_
    obtain ⟨p, hp, rfl⟩ := List.mem_map.mp hx
    simp [hclean p hp]
  unfold canApprovedBlockBeProduced
  simp only [reduceCtorEq, if_false, hfilter]
  simp only [pledgeTriples, List.map_map, Function.comp_def, decide_eq_true_eq, Bool.and_eq_true,
    Bool.or_eq_true]
  refine ⟨Or.inl h1, h2.imp id fun h => by rw [h]⟩

/-! ## Trackers made from one producer list -/

namespace DoomslugApprovalsTracker

variable {m : AList fun _ : A => Nat × Nat} {mode : DoomslugThresholdMode}

/-- A tracker that `new m mode` made: it keeps the pledge map, totals and mode it was given, and
its witnesses are accounts of the map. -/
structure MadeFrom (m : AList fun _ : A => Nat × Nat) (mode : DoomslugThresholdMode)
    (t : DoomslugApprovalsTracker A H) : Prop where
  pledges : t.accountIdToPledges = m
  totalThisEpoch : t.totalPledgeThisEpoch = sumThisEpoch m
  totalNextEpoch : t.totalPledgeNextEpoch = sumNextEpoch m
  thresholdMode : t.thresholdMode = mode
  witness_mem : ∀ a ∈ t.witness, a ∈ m

theorem madeFrom_new : (new m mode : DoomslugApprovalsTracker A H).MadeFrom m mode where
  pledges := rfl
  totalThisEpoch := rfl
  totalNextEpoch := rfl
  thresholdMode := rfl
  witness_mem := by simp

theorem MadeFrom.getBlockProductionReadiness {t : DoomslugApprovalsTracker A H}
    (ht : t.MadeFrom m mode) (now : Nat) : (t.getBlockProductionReadiness now).1.MadeFrom m mode := by
  rw [getBlockProductionReadiness_fst]
  exact ⟨ht.pledges, ht.totalThisEpoch, ht.totalNextEpoch, ht.thresholdMode, ht.witness_mem⟩

theorem MadeFrom.processApproval {t : DoomslugApprovalsTracker A H} (ht : t.MadeFrom m mode)
    (now : Nat) (approval : Approval A H) (ha : approval.accountId ∈ m) :
    (t.processApproval now approval).1.MadeFrom m mode := by
  unfold DoomslugApprovalsTracker.processApproval
  apply MadeFrom.getBlockProductionReadiness
  split_ifs
  · exact ht
  · refine ⟨ht.pledges, ht.totalThisEpoch, ht.totalNextEpoch, ht.thresholdMode, fun a h => ?_⟩
    rcases (AList.mem_insert _).mp h with rfl | h
    exacts [ha, ht.witness_mem a h]

theorem MadeFrom.withdrawApproval {t : DoomslugApprovalsTracker A H} (ht : t.MadeFrom m mode)
    (a : A) : (t.withdrawApproval a).MadeFrom m mode := by
  unfold DoomslugApprovalsTracker.withdrawApproval
  split
  · exact ht
  · exact ⟨ht.pledges, ht.totalThisEpoch, ht.totalNextEpoch, ht.thresholdMode,
      fun b hb => ht.witness_mem b (AList.mem_erase.mp hb).2⟩

/-- In `TwoThirds` mode the threshold test is the two strict two-thirds comparisons. -/
theorem passesThreshold_twoThirds {t : DoomslugApprovalsTracker A H}
    (hmode : t.thresholdMode = .twoThirds) :
    t.passesThreshold = true ↔ t.totalPledgeThisEpoch * 2 / 3 < t.approvedPledgeThisEpoch ∧
      (t.totalPledgeNextEpoch * 2 / 3 < t.approvedPledgeNextEpoch ∨ t.totalPledgeNextEpoch = 0) := by
  simp [passesThreshold, hmode]

theorem getBlockProductionReadiness_snd_of_not {t : DoomslugApprovalsTracker A H}
    (h : t.passesThreshold = false) (now : Nat) :
    (t.getBlockProductionReadiness now).2 = .notReady := by
  simp [getBlockProductionReadiness, h]

end DoomslugApprovalsTracker

namespace DoomslugApprovalsTrackersAtHeight

variable {m : AList fun _ : A => Nat × Nat} {mode : DoomslugThresholdMode}

/-- Every tracker of the height was made from `m` in mode `mode`. -/
def AllMadeFrom (m : AList fun _ : A => Nat × Nat) (mode : DoomslugThresholdMode)
    (s : DoomslugApprovalsTrackersAtHeight A H) : Prop :=
  ∀ p t, s.approvalTrackers p = some t → t.MadeFrom m mode

theorem allMadeFrom_new :
    (DoomslugApprovalsTrackersAtHeight.new : DoomslugApprovalsTrackersAtHeight A H).AllMadeFrom m mode := by
  simp [AllMadeFrom, DoomslugApprovalsTrackersAtHeight.new]

variable [DecidableEq H]

/-- Replacing one parent's tracker by one made from `m` keeps the height made from `m`. -/
theorem AllMadeFrom.update {s s' : DoomslugApprovalsTrackersAtHeight A H} (hs : s.AllMadeFrom m mode)
    {p₀ : ApprovalInner H} {t : DoomslugApprovalsTracker A H} (ht : t.MadeFrom m mode)
    (hs' : s'.approvalTrackers = Function.update s.approvalTrackers p₀ (some t)) :
    s'.AllMadeFrom m mode := by
  intro p u hu
  rw [hs'] at hu
  by_cases hp : p = p₀
  · subst hp
    rw [Function.update_self, Option.some_inj] at hu
    exact hu ▸ ht
  · rw [Function.update_of_ne hp] at hu
    exact hs p u hu

theorem AllMadeFrom.withdrawLast {s : DoomslugApprovalsTrackersAtHeight A H}
    (hs : s.AllMadeFrom m mode) (a : A) : (s.withdrawLast a).AllMadeFrom m mode := by
  intro p t h
  obtain ⟨t₀, ht₀, ⟨rfl, -⟩ | rfl⟩ := withdrawLast_approvalTrackers h
  · exact hs p _ ht₀
  · exact (hs p t₀ ht₀).withdrawApproval a

/-- `process_approval` with the producer list `pledges` makes or updates trackers from its map. -/
theorem AllMadeFrom.processApproval {s : DoomslugApprovalsTrackersAtHeight A H}
    {pledges : List (ApprovalPledge A × Bool)} (hs : s.AllMadeFrom (pledgeMap pledges) mode)
    {now : Nat} {approval : Approval A H}
    {r : DoomslugApprovalsTrackersAtHeight A H × DoomslugBlockProductionReadiness}
    (h : s.processApproval now approval pledges mode = some r) :
    r.1.AllMadeFrom (pledgeMap pledges) mode := by
  unfold DoomslugApprovalsTrackersAtHeight.processApproval at h
  have hs₁ := hs.withdrawLast approval.accountId
  dsimp only at h
  split_ifs at h with hlen hmem
  · cases h
    have ht : (((s.withdrawLast approval.accountId).approvalTrackers approval.inner).getD
        (DoomslugApprovalsTracker.new (pledgeMap pledges) mode)).MadeFrom (pledgeMap pledges) mode := by
      cases hp : (s.withdrawLast approval.accountId).approvalTrackers approval.inner with
      | none => exact DoomslugApprovalsTracker.madeFrom_new
      | some t₀ => exact hs₁ _ _ hp
    exact hs₁.update (ht.processApproval now approval hmem) rfl
  · cases h
    exact hs₁

end DoomslugApprovalsTrackersAtHeight

/-! ## The Doomslug state -/

/-- The approval messages of a run carry the producer list `pledges`. -/
def DoomslugEvent.PledgesAre (pledges : List (ApprovalPledge A × Bool)) :
    DoomslugEvent A H → Prop
  | .onApprovalMessage _ _ allPledge => allPledge = pledges
  | _ => True

instance (pledges : List (ApprovalPledge A × Bool)) :
    (e : DoomslugEvent A H) → Decidable (e.PledgesAre pledges)
  | .setTip .. => isTrue trivial
  | .processTimer _ => isTrue trivial
  | .onApprovalMessage _ _ allPledge => inferInstanceAs (Decidable (allPledge = pledges))

namespace Doomslug

@[simp] theorem timerIter_thresholdMode (s : Doomslug A H) (t : Nat) :
    (s.timerIter t).1.thresholdMode = s.thresholdMode := by
  unfold timerIter timerSkip timerEndorse
  dsimp only
  split_ifs <;> rfl

theorem processTimerLoop_thresholdMode (t : Nat) :
    ∀ (fuel : Nat) (s : Doomslug A H),
      (Doomslug.processTimerLoop t fuel s).1.thresholdMode = s.thresholdMode
  | 0, _ => rfl
  | fuel + 1, s => by
    simp only [Doomslug.processTimerLoop]
    split
    · rw [processTimerLoop_thresholdMode t fuel, timerIter_thresholdMode]
    · exact timerIter_thresholdMode s t

/-- Every tracker of every height was made from the pledge map of `pledges`, in the node's mode. -/
def TrackersMadeFrom (pledges : List (ApprovalPledge A × Bool)) (s : Doomslug A H) : Prop :=
  ∀ h atHeight, s.approvalTracking h = some atHeight →
    atHeight.AllMadeFrom (pledgeMap pledges) s.thresholdMode

variable {pledges : List (ApprovalPledge A × Bool)}

theorem trackersMadeFrom_new [Inhabited H] (now lth ed md ds mx : Nat) (signer : Option A)
    (mode : DoomslugThresholdMode) :
    (Doomslug.new now lth ed md ds mx signer mode : Doomslug A H).TrackersMadeFrom pledges := by
  intro h atHeight hat
  simp [Doomslug.new] at hat

theorem TrackersMadeFrom.setTip {s : Doomslug A H} (hs : s.TrackersMadeFrom pledges) (now : Nat)
    (blockHash : H) (height lastFinalHeight : Nat) :
    (s.setTip now blockHash height lastFinalHeight).TrackersMadeFrom pledges := by
  intro h atHeight hat
  simp only [Doomslug.setTip] at hat
  split_ifs at hat
  exact hs h atHeight hat

theorem TrackersMadeFrom.processTimer {s : Doomslug A H} (hs : s.TrackersMadeFrom pledges)
    (t : Nat) : (s.processTimer t).1.TrackersMadeFrom pledges := by
  intro h atHeight hat
  rw [Doomslug.processTimer, processTimerLoop_approvalTracking] at hat
  rw [Doomslug.processTimer, processTimerLoop_thresholdMode]
  exact hs h atHeight hat

variable [DecidableEq H]

theorem onApprovalMessage_thresholdMode (s : Doomslug A H) (now : Nat) (approval : Approval A H)
    (allPledge : List (ApprovalPledge A × Bool)) :
    ((s.onApprovalMessage now approval allPledge).getD s).thresholdMode = s.thresholdMode := by
  cases hm : s.onApprovalMessage now approval allPledge with
  | none => rfl
  | some s' =>
    rw [Option.getD_some]
    unfold Doomslug.onApprovalMessage at hm
    split_ifs at hm
    · cases hm
      rfl
    · obtain ⟨r, hr, rfl⟩ := Option.map_eq_some_iff.mp hm
      unfold onApprovalMessageInternal at hr
      obtain ⟨q, -, hr⟩ := Option.bind_eq_some_iff.mp hr
      cases hr
      dsimp only
      split_ifs <;> rfl

theorem TrackersMadeFrom.onApprovalMessage {s : Doomslug A H} (hs : s.TrackersMadeFrom pledges)
    (now : Nat) (approval : Approval A H) :
    ((s.onApprovalMessage now approval pledges).getD s).TrackersMadeFrom pledges := by
  have hmode := onApprovalMessage_thresholdMode s now approval pledges
  cases hm : s.onApprovalMessage now approval pledges with
  | none => exact hs
  | some s' =>
    rw [hm, Option.getD_some] at hmode
    rw [Option.getD_some]
    unfold Doomslug.onApprovalMessage at hm
    split_ifs at hm
    · cases hm
      exact hs
    · obtain ⟨r, hr, rfl⟩ := Option.map_eq_some_iff.mp hm
      obtain ⟨q, hq, htrack⟩ := onApprovalMessageInternal_approvalTracking hr
      -- the height's trackers, or fresh ones, take the approval
      have hat : ((s.approvalTracking approval.targetHeight).getD .new).AllMadeFrom
          (pledgeMap pledges) s.thresholdMode := by
        cases ht : s.approvalTracking approval.targetHeight with
        | none => exact DoomslugApprovalsTrackersAtHeight.allMadeFrom_new
        | some atHeight => exact hs _ _ ht
      intro h atHeight hat'
      rw [htrack] at hat'
      rw [hmode]
      by_cases hh : h = approval.targetHeight
      · subst hh
        rw [Function.update_self, Option.some_inj] at hat'
        exact hat' ▸ hat.processApproval hq
      · rw [Function.update_of_ne hh] at hat'
        exact hs h atHeight hat'

theorem step_thresholdMode (s : Doomslug A H) (e : DoomslugEvent A H) :
    (s.step e).1.thresholdMode = s.thresholdMode := by
  cases e with
  | setTip now h height lfh => rfl
  | processTimer t => exact processTimerLoop_thresholdMode t MAX_TIMER_ITERS s
  | onApprovalMessage now a p => exact onApprovalMessage_thresholdMode s now a p

theorem run_thresholdMode (s : Doomslug A H) :
    ∀ evs : List (DoomslugEvent A H), (s.run evs).1.thresholdMode = s.thresholdMode
  | [] => rfl
  | e :: evs => (run_thresholdMode (s.step e).1 evs).trans (step_thresholdMode s e)

theorem TrackersMadeFrom.step {s : Doomslug A H} (hs : s.TrackersMadeFrom pledges)
    (e : DoomslugEvent A H) (he : e.PledgesAre pledges) : (s.step e).1.TrackersMadeFrom pledges := by
  cases e with
  | setTip now h height lfh => exact hs.setTip now h height lfh
  | processTimer t => exact hs.processTimer t
  | onApprovalMessage now a p =>
    cases he
    exact hs.onApprovalMessage now a

theorem TrackersMadeFrom.run {s : Doomslug A H} (hs : s.TrackersMadeFrom pledges) :
    ∀ evs : List (DoomslugEvent A H), (∀ e ∈ evs, e.PledgesAre pledges) →
      (s.run evs).1.TrackersMadeFrom pledges
  | [], _ => hs
  | e :: evs, hevs =>
    (hs.step e (hevs e List.mem_cons_self)).run evs fun e' he' => hevs e' (List.mem_cons_of_mem e he')

end Doomslug

/-! ## Readiness against the block validator -/

namespace Doomslug

theorem getWitness_of_tracker {s : Doomslug A H} {prevHash : H} {parentHeight targetHeight : Nat}
    {atHeight : DoomslugApprovalsTrackersAtHeight A H} {t : DoomslugApprovalsTracker A H}
    (hat : s.approvalTracking targetHeight = some atHeight)
    (ht : atHeight.approvalTrackers (ApprovalInner.new prevHash parentHeight targetHeight) = some t) :
    s.getWitness prevHash parentHeight targetHeight = t.witness := by
  simp [getWitness, hat, ht]

variable [DecidableEq H]

/-- `ready_to_produce_block` answers `true` only through the tracker of the tip at the height, and
only once that tracker passed its threshold. -/
theorem exists_tracker_of_readyToProduceBlock {s : Doomslug A H} {now targetHeight : Nat}
    {hasEnoughChunks : Bool} (h : (s.readyToProduceBlock now targetHeight hasEnoughChunks).2 = true) :
    ∃ atHeight t, s.approvalTracking targetHeight = some atHeight ∧
      atHeight.approvalTrackers (ApprovalInner.new s.tip.blockHash s.tip.height targetHeight) =
        some t ∧ t.passesThreshold = true := by
  unfold readyToProduceBlock at h
  dsimp only at h
  split at h
  · simp at h
  · next atHeight hat =>
    split at h
    · simp at h
    · next t ht =>
      refine ⟨atHeight, t, hat, ht, ?_⟩
      by_contra hpass
      rw [DoomslugApprovalsTracker.getBlockProductionReadiness_snd_of_not
        (Bool.of_not_eq_true hpass)] at h
      simp at h

variable {pledges : List (ApprovalPledge A × Bool)}

/-- In every state where the trackers are accounted and made from `pledges`, in `TwoThirds`
mode: a block `ready_to_produce_block` accepts carries approvals that
`can_approved_block_be_produced` accepts. -/
theorem canApprovedBlockBeProduced_of_readyToProduceBlock {s : Doomslug A H}
    (hc : s.ApprovalsConsistent) (hm : s.TrackersMadeFrom pledges)
    (hmode : s.thresholdMode = .twoThirds) (hnodup : (pledges.map fun p => p.1.accountId).Nodup)
    (hclean : ∀ p ∈ pledges, p.2 = false) {now targetHeight : Nat} {hasEnoughChunks : Bool}
    (hready : (s.readyToProduceBlock now targetHeight hasEnoughChunks).2 = true) :
    canApprovedBlockBeProduced .twoThirds
      (approvalsOf pledges (s.getWitness s.tip.blockHash s.tip.height targetHeight))
      (pledgeTriples pledges) = true := by
  obtain ⟨atHeight, t, hat, ht, hpass⟩ := exists_tracker_of_readyToProduceBlock hready
  have hacc := (hc _ _ hat).accounted _ _ ht
  have hmade := hm _ _ hat _ _ ht
  rw [getWitness_of_tracker hat ht]
  rw [DoomslugApprovalsTracker.passesThreshold_twoThirds (hmade.thresholdMode.trans hmode),
    hacc.thisEpoch, hacc.nextEpoch, hmade.totalThisEpoch, hmade.totalNextEpoch,
    sumThisEpoch_pledgeMap hnodup hclean, sumNextEpoch_pledgeMap hnodup hclean] at hpass
  -- the tracker's sums over its witness are the validator's sums along the producer list
  have hsum := fun e => sum_pledges_of_mem_witness hnodup hclean t.witness hmade.witness_mem e
  simp only [DoomslugApprovalsTracker.witnessPledge, hmade.pledges] at hpass
  rw [← hsum Prod.fst, ← hsum Prod.snd] at hpass
  exact canApprovedBlockBeProduced_approvalsOf hclean t.witness hpass.1 hpass.2

end Doomslug

/-- A node in `TwoThirds` mode that receives, over any run of calls from `Doomslug::new`,
approvals with one list of distinct, non-slashed producers: when `ready_to_produce_block`
answers `true`, the approvals of the tip's witness pass `can_approved_block_be_produced`. -/
theorem ready_block_passes_approval_check [DecidableEq H] [Inhabited H]
    (now lth ed md ds mx : Nat) (signer : Option A) (pledges : List (ApprovalPledge A × Bool))
    (hnodup : (pledges.map fun p => p.1.accountId).Nodup) (hclean : ∀ p ∈ pledges, p.2 = false)
    (evs : List (DoomslugEvent A H)) (hevs : ∀ e ∈ evs, e.PledgesAre pledges)
    (now' targetHeight : Nat) (hasEnoughChunks : Bool)
    (hready : (((Doomslug.new now lth ed md ds mx signer .twoThirds : Doomslug A H).run evs).1.readyToProduceBlock
      now' targetHeight hasEnoughChunks).2 = true) :
    canApprovedBlockBeProduced .twoThirds
      (approvalsOf pledges (((Doomslug.new now lth ed md ds mx signer .twoThirds : Doomslug A H).run evs).1.getWitness
        ((Doomslug.new now lth ed md ds mx signer .twoThirds : Doomslug A H).run evs).1.tip.blockHash
        ((Doomslug.new now lth ed md ds mx signer .twoThirds : Doomslug A H).run evs).1.tip.height
        targetHeight))
      (pledgeTriples pledges) = true :=
  Doomslug.canApprovedBlockBeProduced_of_readyToProduceBlock
    ((Doomslug.approvalsConsistent_new now lth ed md ds mx signer .twoThirds).run evs)
    ((Doomslug.trackersMadeFrom_new now lth ed md ds mx signer .twoThirds).run evs hevs)
    (Doomslug.run_thresholdMode _ evs) hnodup hclean hready

namespace Doomslug

/-- Two producers of the example in `DoomslugApprovals`, neither slashed. -/
def sampleApprovalPledges : List (ApprovalPledge Nat × Bool) :=
  [(⟨0, 10, 10⟩, false), (⟨1, 5, 5⟩, false)]

/-- Both producers endorse the tip at height `0` for height `1`. -/
def sampleApprovalEvents : List (DoomslugEvent Nat Nat) :=
  [.onApprovalMessage 0 ⟨.endorsement 0, 1, 0⟩ sampleApprovalPledges,
    .onApprovalMessage 0 ⟨.endorsement 0, 1, 1⟩ sampleApprovalPledges]

theorem ready_block_passes_approval_check_sample :
    (sampleApprovalPledges.map fun p => p.1.accountId).Nodup ∧
      (∀ p ∈ sampleApprovalPledges, p.2 = false) ∧
      (∀ e ∈ sampleApprovalEvents, e.PledgesAre sampleApprovalPledges) ∧
      (((Doomslug.new 0 0 1 1 1 1 none .twoThirds : Doomslug Nat Nat).run
        sampleApprovalEvents).1.readyToProduceBlock 0 1 true).2 = true ∧
      canApprovedBlockBeProduced .twoThirds
        (approvalsOf sampleApprovalPledges
          (((Doomslug.new 0 0 1 1 1 1 none .twoThirds : Doomslug Nat Nat).run
            sampleApprovalEvents).1.getWitness 0 0 1))
        (pledgeTriples sampleApprovalPledges) = true :=
  ⟨by decide, by decide, by decide, by decide,
    ready_block_passes_approval_check 0 0 1 1 1 1 none sampleApprovalPledges (by decide) (by decide)
      sampleApprovalEvents (by decide) 0 1 true (by decide)⟩

end Doomslug

end Unc
