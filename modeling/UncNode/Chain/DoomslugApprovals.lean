import Mathlib
import UncNode.Chain.Doomslug

/-!
# Doomslug — the approval accounting of the trackers

Every tracker keeps the pledge map it was created with, and counts in `approved_pledge_*` the
pledges, in that map, of the accounts in its `witness`. `DoomslugApprovalsTrackersAtHeight`
keeps one approval per account: before an account's new approval is counted, its last one is
withdrawn from the tracker of the parent it approved last.

* `DoomslugApprovalsTracker.Accounted`: the approved pledges are the sums over the witness;
* `DoomslugApprovalsTrackersAtHeight.Consistent`: every tracker is accounted, and an account
  is only in the witness of the tracker of the parent it approved last;
* `processApproval_eq_none_of_slashed`: `process_approval` filters the slashed producers out of
  its pledge map and then asserts that the map is as long as the list, so one slashed producer
  makes every approval within the horizon fail; `processApproval_isSome` gives the other
  direction, for lists of distinct accounts;
* **`run_approvals_accounted`**: in every state a run from `Doomslug.new` reaches, every tracker
  is accounted, each account is in at most one witness per height, and `withdraw_approval`
  never subtracts more than was approved.
-/

set_option autoImplicit false

namespace Unc

variable {A H : Type}

/-! ## Sums over the keys of an association list -/

section KeySum

variable {β : A → Type}

/-- The sum of `f` over the keys of `s`. -/
def keySum (f : A → Nat) (s : AList β) : Nat :=
  (s.keys.map f).sum

@[simp] theorem keySum_empty (f : A → Nat) : keySum f (∅ : AList β) = 0 := rfl

variable [DecidableEq A]

theorem keySum_insert_of_notMem (f : A → Nat) {s : AList β} {a : A} (b : β a) (h : a ∉ s) :
    keySum f (s.insert a b) = f a + keySum f s := by
  have hk : a ∉ s.keys := AList.mem_keys.not.mp h
  simp [keySum, AList.keys_insert, List.erase_of_not_mem hk]

theorem keySum_erase_add (f : A → Nat) {s : AList β} {a : A} (h : a ∈ s) :
    keySum f (s.erase a) + f a = keySum f s := by
  have hp : s.keys.Perm (a :: s.keys.erase a) := List.perm_cons_erase (AList.mem_keys.mp h)
  rw [keySum, keySum, AList.keys_erase, (hp.map f).sum_eq, List.map_cons, List.sum_cons]
  omega

theorem le_keySum (f : A → Nat) {s : AList β} {a : A} (h : a ∈ s) : f a ≤ keySum f s := by
  rw [← keySum_erase_add f h]
  omega

end KeySum

variable [DecidableEq A]

/-! ## One tracker -/

namespace DoomslugApprovalsTracker

/-- The pledges, in the tracker's own pledge map, of the accounts in its witness; `epoch` picks
this epoch's (`Prod.fst`) or next epoch's (`Prod.snd`) pledge. -/
def witnessPledge (t : DoomslugApprovalsTracker A H) (epoch : Nat × Nat → Nat) : Nat :=
  keySum (fun a => epoch (pledgesOf t.accountIdToPledges a)) t.witness

/-- What `process_approval` and `withdraw_approval` keep: the approved pledges are those of the
witnesses, and each witness is stored under its own account. -/
structure Accounted (t : DoomslugApprovalsTracker A H) : Prop where
  thisEpoch : t.approvedPledgeThisEpoch = t.witnessPledge Prod.fst
  nextEpoch : t.approvedPledgeNextEpoch = t.witnessPledge Prod.snd
  keyed : ∀ a approval, t.witness.lookup a = some approval → approval.accountId = a

theorem accounted_new (m : AList fun _ : A => Nat × Nat) (mode : DoomslugThresholdMode) :
    (DoomslugApprovalsTracker.new m mode : DoomslugApprovalsTracker A H).Accounted where
  thisEpoch := rfl
  nextEpoch := rfl
  keyed := by simp [DoomslugApprovalsTracker.new]

@[simp] theorem witness_new (m : AList fun _ : A => Nat × Nat) (mode : DoomslugThresholdMode) :
    (DoomslugApprovalsTracker.new m mode : DoomslugApprovalsTracker A H).witness = ∅ := rfl

/-- **`withdraw_approval` never underflows**: an account in the witness approved no more than
the tracker counts. -/
theorem pledges_le_approved {t : DoomslugApprovalsTracker A H} (ht : t.Accounted) {a : A}
    (ha : a ∈ t.witness) :
    (pledgesOf t.accountIdToPledges a).1 ≤ t.approvedPledgeThisEpoch ∧
      (pledgesOf t.accountIdToPledges a).2 ≤ t.approvedPledgeNextEpoch := by
  rw [ht.thisEpoch, ht.nextEpoch]
  exact ⟨le_keySum (fun a => (pledgesOf t.accountIdToPledges a).1) ha,
    le_keySum (fun a => (pledgesOf t.accountIdToPledges a).2) ha⟩

/-- `get_block_production_readiness` only sets `time_passed_threshold`. -/
theorem getBlockProductionReadiness_fst (t : DoomslugApprovalsTracker A H) (now : Nat) :
    (t.getBlockProductionReadiness now).1 =
      { t with timePassedThreshold := (t.getBlockProductionReadiness now).1.timePassedThreshold } := by
  unfold getBlockProductionReadiness
  split
  · split <;> rfl
  · rfl

theorem Accounted.getBlockProductionReadiness {t : DoomslugApprovalsTracker A H}
    (ht : t.Accounted) (now : Nat) : (t.getBlockProductionReadiness now).1.Accounted := by
  rw [getBlockProductionReadiness_fst]
  exact ⟨ht.thisEpoch, ht.nextEpoch, ht.keyed⟩

@[simp] theorem getBlockProductionReadiness_witness (t : DoomslugApprovalsTracker A H) (now : Nat) :
    (t.getBlockProductionReadiness now).1.witness = t.witness := by
  rw [getBlockProductionReadiness_fst]

theorem mem_processApproval_witness (t : DoomslugApprovalsTracker A H) (now : Nat)
    (approval : Approval A H) (a : A) :
    a ∈ (t.processApproval now approval).1.witness ↔ a = approval.accountId ∨ a ∈ t.witness := by
  unfold processApproval
  rw [getBlockProductionReadiness_witness]
  split_ifs with h
  · constructor
    · exact Or.inr
    · rintro (rfl | ha)
      · exact h
      · exact ha
  · exact AList.mem_insert _

theorem Accounted.processApproval {t : DoomslugApprovalsTracker A H} (ht : t.Accounted)
    (now : Nat) (approval : Approval A H) : (t.processApproval now approval).1.Accounted := by
  unfold DoomslugApprovalsTracker.processApproval
  apply Accounted.getBlockProductionReadiness
  split_ifs with h
  · exact ht
  · refine ⟨?_, ?_, ?_⟩
    · simp only [witnessPledge, keySum_insert_of_notMem _ _ h]
      rw [ht.thisEpoch, witnessPledge]
      omega
    · simp only [witnessPledge, keySum_insert_of_notMem _ _ h]
      rw [ht.nextEpoch, witnessPledge]
      omega
    · intro a ap hap
      by_cases ha : a = approval.accountId
      · subst ha
        rw [AList.lookup_insert] at hap
        cases hap
        rfl
      · rw [AList.lookup_insert_ne ha] at hap
        exact ht.keyed a ap hap

@[simp] theorem mem_withdrawApproval_witness (t : DoomslugApprovalsTracker A H) (a b : A) :
    b ∈ (t.withdrawApproval a).witness ↔ b ≠ a ∧ b ∈ t.witness := by
  unfold withdrawApproval
  split
  · next h =>
    have ha : a ∉ t.witness := AList.lookup_eq_none.mp h
    constructor
    · exact fun hb => ⟨fun hba => ha (hba ▸ hb), hb⟩
    · exact fun hb => hb.2
  · exact AList.mem_erase

theorem Accounted.withdrawApproval {t : DoomslugApprovalsTracker A H} (ht : t.Accounted)
    (a : A) : (t.withdrawApproval a).Accounted := by
  unfold DoomslugApprovalsTracker.withdrawApproval
  split
  · exact ht
  · next approval hlookup =>
    have hmem : a ∈ t.witness := AList.lookup_isSome.mp (by simp [hlookup])
    -- the stored approval is the account's own, so its pledges are the ones erased
    have hkey : approval.accountId = a := ht.keyed a approval hlookup
    refine ⟨?_, ?_, ?_⟩
    · have := keySum_erase_add (fun a => (pledgesOf t.accountIdToPledges a).1) hmem
      simp only [witnessPledge, hkey] at this ⊢
      rw [ht.thisEpoch, witnessPledge]
      omega
    · have := keySum_erase_add (fun a => (pledgesOf t.accountIdToPledges a).2) hmem
      simp only [witnessPledge, hkey] at this ⊢
      rw [ht.nextEpoch, witnessPledge]
      omega
    · intro b ap hb
      by_cases hba : b = a
      · subst hba
        simp at hb
      · rw [AList.lookup_erase_ne hba] at hb
        exact ht.keyed b ap hb

end DoomslugApprovalsTracker

/-! ## The trackers of one height -/

namespace DoomslugApprovalsTrackersAtHeight

/-- The invariant of the trackers of one height: each is accounted, and an account is in the
witness of a tracker only if that tracker's parent is the one it approved last. -/
structure Consistent (s : DoomslugApprovalsTrackersAtHeight A H) : Prop where
  accounted : ∀ p t, s.approvalTrackers p = some t → t.Accounted
  lastApproval : ∀ p t a, s.approvalTrackers p = some t → a ∈ t.witness →
    s.lastApprovalPerAccount a = some p

theorem consistent_new : (DoomslugApprovalsTrackersAtHeight.new : DoomslugApprovalsTrackersAtHeight A H).Consistent where
  accounted := by simp [DoomslugApprovalsTrackersAtHeight.new]
  lastApproval := by simp [DoomslugApprovalsTrackersAtHeight.new]

/-- **Each account is in at most one witness** at a height. -/
theorem Consistent.witness_unique {s : DoomslugApprovalsTrackersAtHeight A H} (hs : s.Consistent)
    {p q : ApprovalInner H} {t u : DoomslugApprovalsTracker A H} {a : A}
    (ht : s.approvalTrackers p = some t) (hu : s.approvalTrackers q = some u)
    (hat : a ∈ t.witness) (hau : a ∈ u.witness) : p = q := by
  have h1 := hs.lastApproval p t a ht hat
  have h2 := hs.lastApproval q u a hu hau
  rw [h1] at h2
  exact Option.some_inj.mp h2

variable [DecidableEq H]

@[simp] theorem withdrawLast_lastApprovalPerAccount (s : DoomslugApprovalsTrackersAtHeight A H)
    (a : A) : (s.withdrawLast a).lastApprovalPerAccount = s.lastApprovalPerAccount := by
  unfold withdrawLast
  split
  · rfl
  · split <;> rfl

/-- What `withdrawLast` leaves at each parent: the tracker it had, or at the parent the account
approved last, that tracker after `withdraw_approval` (dropped when its witness emptied). -/
theorem withdrawLast_approvalTrackers {s : DoomslugApprovalsTrackersAtHeight A H} {a : A}
    {p : ApprovalInner H} {t : DoomslugApprovalsTracker A H}
    (h : (s.withdrawLast a).approvalTrackers p = some t) :
    ∃ t₀, s.approvalTrackers p = some t₀ ∧
      (t = t₀ ∧ s.lastApprovalPerAccount a ≠ some p ∨ t = t₀.withdrawApproval a) := by
  unfold withdrawLast at h
  split at h
  · next hl => exact ⟨t, h, .inl ⟨rfl, by simp [hl]⟩⟩
  · next last hl =>
    split at h
    · next ht₀ =>
      refine ⟨t, h, .inl ⟨rfl, fun hp => ?_⟩⟩
      rw [hl, Option.some_inj] at hp
      subst hp
      simp [ht₀] at h
    · next t₀ ht₀ =>
      dsimp only at h
      by_cases hp : p = last
      · subst hp
        simp only [Function.update_self] at h
        split_ifs at h
        exact ⟨t₀, ht₀, .inr (Option.some_inj.mp h).symm⟩
      · rw [Function.update_of_ne hp] at h
        exact ⟨t, h, .inl ⟨rfl, by simp [hl, Ne.symm hp]⟩⟩

theorem Consistent.withdrawLast {s : DoomslugApprovalsTrackersAtHeight A H} (hs : s.Consistent)
    (a : A) : (s.withdrawLast a).Consistent where
  accounted p t h := by
    obtain ⟨t₀, ht₀, ⟨rfl, -⟩ | rfl⟩ := withdrawLast_approvalTrackers h
    · exact hs.accounted p _ ht₀
    · exact (hs.accounted p t₀ ht₀).withdrawApproval a
  lastApproval p t b h hb := by
    rw [withdrawLast_lastApprovalPerAccount]
    obtain ⟨t₀, ht₀, ⟨rfl, -⟩ | rfl⟩ := withdrawLast_approvalTrackers h
    · exact hs.lastApproval p _ b ht₀ hb
    · rw [DoomslugApprovalsTracker.mem_withdrawApproval_witness] at hb
      exact hs.lastApproval p t₀ b ht₀ hb.2

/-- After `withdrawLast a`, the account `a` is in no witness. -/
theorem Consistent.notMem_withdrawLast {s : DoomslugApprovalsTrackersAtHeight A H}
    (hs : s.Consistent) {a : A} {p : ApprovalInner H} {t : DoomslugApprovalsTracker A H}
    (h : (s.withdrawLast a).approvalTrackers p = some t) : a ∉ t.witness := by
  obtain ⟨t₀, ht₀, ⟨rfl, hne⟩ | rfl⟩ := withdrawLast_approvalTrackers h
  · exact fun ha => hne (hs.lastApproval p _ a ht₀ ha)
  · simp

theorem Consistent.processApproval {s : DoomslugApprovalsTrackersAtHeight A H}
    (hs : s.Consistent) {now : Nat} {approval : Approval A H}
    {pledges : List (ApprovalPledge A × Bool)} {mode : DoomslugThresholdMode}
    {r : DoomslugApprovalsTrackersAtHeight A H × DoomslugBlockProductionReadiness}
    (h : s.processApproval now approval pledges mode = some r) : r.1.Consistent := by
  unfold DoomslugApprovalsTrackersAtHeight.processApproval at h
  have hs₁ := hs.withdrawLast approval.accountId
  dsimp only at h
  have hlen : ¬(pledgeMap pledges).entries.length ≠ pledges.length := fun hne => by
    rw [if_pos hne] at h
    cases h
  rw [if_neg hlen] at h
  by_cases hmem : approval.accountId ∈ pledgeMap pledges
  case neg =>
    -- a non-validator's approval is only withdrawn
    rw [if_pos hmem] at h
    cases h
    exact hs₁
  rw [if_neg (not_not.mpr hmem)] at h
  cases h
  set s₁ := s.withdrawLast approval.accountId
  set t := (s₁.approvalTrackers approval.inner).getD
    (DoomslugApprovalsTracker.new (pledgeMap pledges) mode)
  -- the tracker that counts the approval: the parent's own, or a fresh one
  have ht : t.Accounted ∧ ∀ b ∈ t.witness, s₁.lastApprovalPerAccount b = some approval.inner := by
    cases hp : s₁.approvalTrackers approval.inner with
    | none =>
      simp only [t, hp, Option.getD_none]
      exact ⟨DoomslugApprovalsTracker.accounted_new _ _, by simp⟩
    | some t₀ =>
      simp only [t, hp, Option.getD_some]
      exact ⟨hs₁.accounted _ _ hp, fun b hb => hs₁.lastApproval _ _ b hp hb⟩
  refine ⟨?_, ?_⟩
  · intro p u hu
    dsimp only at hu
    by_cases hp : p = approval.inner
    · subst hp
      simp only [Function.update_self, Option.some_inj] at hu
      subst hu
      exact ht.1.processApproval now approval
    · rw [Function.update_of_ne hp] at hu
      exact hs₁.accounted p u hu
  · intro p u b hu hb
    dsimp only at hu ⊢
    by_cases hba : b = approval.accountId
    · subst hba
      by_cases hp : p = approval.inner
      · simp [hp]
      · rw [Function.update_of_ne hp] at hu
        exact absurd hb (hs.notMem_withdrawLast hu)
    · rw [Function.update_of_ne hba]
      by_cases hp : p = approval.inner
      · subst hp
        simp only [Function.update_self, Option.some_inj] at hu
        subst hu
        rcases (DoomslugApprovalsTracker.mem_processApproval_witness _ _ _ _).mp hb with hb | hb
        · exact absurd hb hba
        · exact ht.2 b hb
      · rw [Function.update_of_ne hp] at hu
        exact hs₁.lastApproval p u b hu hb

/-- Replacing one parent's tracker by an accounted one, whose witnesses all approved that parent
last, keeps the height consistent. -/
theorem Consistent.update {s : DoomslugApprovalsTrackersAtHeight A H} (hs : s.Consistent)
    {p₀ : ApprovalInner H} {t : DoomslugApprovalsTracker A H} (ht : t.Accounted)
    (hw : ∀ b ∈ t.witness, s.lastApprovalPerAccount b = some p₀) :
    ({ s with approvalTrackers := Function.update s.approvalTrackers p₀ (some t) } :
      DoomslugApprovalsTrackersAtHeight A H).Consistent where
  accounted p u hu := by
    dsimp only at hu
    by_cases hp : p = p₀
    · subst hp
      rw [Function.update_self, Option.some_inj] at hu
      exact hu ▸ ht
    · rw [Function.update_of_ne hp] at hu
      exact hs.accounted p u hu
  lastApproval p u b hu hb := by
    dsimp only at hu ⊢
    by_cases hp : p = p₀
    · subst hp
      rw [Function.update_self, Option.some_inj] at hu
      exact hw b (hu ▸ hb)
    · rw [Function.update_of_ne hp] at hu
      exact hs.lastApproval p u b hu hb

/-! ### When `process_approval` panics -/

theorem length_insert_le {β : A → Type} (s : AList β) (a : A) (b : β a) :
    (s.insert a b).entries.length ≤ s.entries.length + 1 := by
  rw [AList.entries_insert, List.length_cons]
  have := (List.kerase_sublist a s.entries).length_le
  omega

/-- The pledge map has at most one entry per non-slashed producer. -/
theorem length_pledgeMap_le (pledges : List (ApprovalPledge A × Bool)) :
    (pledgeMap pledges).entries.length ≤ (pledges.filter fun p => !p.2).length := by
  unfold pledgeMap
  -- the fold from any start map adds at most one entry per kept producer
  suffices h : ∀ (m : AList fun _ : A => Nat × Nat),
      (pledges.foldl (fun m p => if p.2 then m
        else m.insert p.1.accountId (p.1.pledgeThisEpoch, p.1.pledgeNextEpoch)) m).entries.length ≤
        m.entries.length + (pledges.filter fun p => !p.2).length by
    simpa using h ∅
  induction pledges with
  | nil => simp
  | cons p ps ih =>
    intro m
    cases hp : p.2 with
    | true =>
      have := ih m
      simp only [List.foldl_cons, hp, if_true]
      rw [List.filter_cons_of_neg (by simp [hp])]
      exact this
    | false =>
      have := ih (m.insert p.1.accountId (p.1.pledgeThisEpoch, p.1.pledgeNextEpoch))
      have hins := length_insert_le m p.1.accountId (p.1.pledgeThisEpoch, p.1.pledgeNextEpoch)
      simp only [List.foldl_cons, hp, Bool.false_eq_true, if_false]
      rw [List.filter_cons_of_pos (by simp [hp]), List.length_cons]
      omega

/-- **One slashed producer makes `process_approval` panic**: the slashed entries are filtered out
of the map, whose length the `assert_eq!` then compares with the whole list. -/
theorem processApproval_eq_none_of_slashed (s : DoomslugApprovalsTrackersAtHeight A H)
    (now : Nat) (approval : Approval A H) {pledges : List (ApprovalPledge A × Bool)}
    (mode : DoomslugThresholdMode) (hslashed : ∃ p ∈ pledges, p.2 = true) :
    s.processApproval now approval pledges mode = none := by
  have hlt : (pledges.filter fun p => !p.2).length < pledges.length := by
    apply List.length_filter_lt_length_iff_exists.mpr
    obtain ⟨p, hp, hs⟩ := hslashed
    exact ⟨p, hp, by simp [hs]⟩
  have hle := length_pledgeMap_le pledges
  unfold DoomslugApprovalsTrackersAtHeight.processApproval
  rw [if_pos (by omega)]

/-- Without slashed producers, the accounts of distinct producers fill the map one each. -/
theorem length_pledgeMap_of_nodup {pledges : List (ApprovalPledge A × Bool)}
    (hnodup : (pledges.map fun p => p.1.accountId).Nodup) (hclean : ∀ p ∈ pledges, p.2 = false) :
    (pledgeMap pledges).entries.length = pledges.length := by
  unfold pledgeMap
  suffices h : ∀ (m : AList fun _ : A => Nat × Nat) (ps : List (ApprovalPledge A × Bool)),
      (ps.map fun p => p.1.accountId).Nodup → (∀ p ∈ ps, p.2 = false) →
      (∀ p ∈ ps, p.1.accountId ∉ m) →
      (ps.foldl (fun m p => if p.2 then m
        else m.insert p.1.accountId (p.1.pledgeThisEpoch, p.1.pledgeNextEpoch)) m).entries.length =
        m.entries.length + ps.length by
    simpa using h ∅ pledges hnodup hclean (by simp)
  intro m ps
  induction ps generalizing m with
  | nil => simp
  | cons p ps ih =>
    intro hnd hcl hfresh
    simp only [List.map_cons, List.nodup_cons, List.mem_map] at hnd
    have hp : p.2 = false := hcl p (by simp)
    have hm : p.1.accountId ∉ m := hfresh p (by simp)
    have := ih (m.insert p.1.accountId (p.1.pledgeThisEpoch, p.1.pledgeNextEpoch)) hnd.2
      (fun q hq => hcl q (by simp [hq]))
      (fun q hq hmem => by
        rcases (AList.mem_insert _).mp hmem with heq | hmem
        · exact hnd.1 ⟨q, hq, heq⟩
        · exact hfresh q (by simp [hq]) hmem)
    simp only [List.foldl_cons, hp, Bool.false_eq_true, if_false, List.length_cons] at this ⊢
    rw [this, AList.entries_insert_of_notMem hm, List.length_cons]
    omega

/-- Over a list of distinct, non-slashed producers, `process_approval` does not panic. -/
theorem processApproval_isSome (s : DoomslugApprovalsTrackersAtHeight A H) (now : Nat)
    (approval : Approval A H) {pledges : List (ApprovalPledge A × Bool)}
    (mode : DoomslugThresholdMode) (hnodup : (pledges.map fun p => p.1.accountId).Nodup)
    (hclean : ∀ p ∈ pledges, p.2 = false) :
    (s.processApproval now approval pledges mode).isSome := by
  unfold DoomslugApprovalsTrackersAtHeight.processApproval
  rw [if_neg (by simp [length_pledgeMap_of_nodup hnodup hclean])]
  split_ifs <;> rfl

end DoomslugApprovalsTrackersAtHeight

/-! ## The Doomslug state -/

namespace Doomslug

/-- Every height's trackers are consistent. -/
def ApprovalsConsistent (s : Doomslug A H) : Prop :=
  ∀ h atHeight, s.approvalTracking h = some atHeight → atHeight.Consistent

theorem approvalsConsistent_new [Inhabited H] (now lth ed md ds mx : Nat) (signer : Option A)
    (mode : DoomslugThresholdMode) :
    (Doomslug.new now lth ed md ds mx signer mode : Doomslug A H).ApprovalsConsistent := by
  intro h atHeight hat
  simp [Doomslug.new] at hat

theorem ApprovalsConsistent.setTip {s : Doomslug A H} (hs : s.ApprovalsConsistent) (now : Nat)
    (blockHash : H) (height lastFinalHeight : Nat) :
    (s.setTip now blockHash height lastFinalHeight).ApprovalsConsistent := by
  intro h atHeight hat
  simp only [Doomslug.setTip] at hat
  split_ifs at hat
  exact hs h atHeight hat

@[simp] theorem timerIter_approvalTracking (s : Doomslug A H) (t : Nat) :
    (s.timerIter t).1.approvalTracking = s.approvalTracking := by
  unfold timerIter timerSkip timerEndorse
  dsimp only
  split_ifs <;> rfl

theorem processTimerLoop_approvalTracking (t : Nat) :
    ∀ (fuel : Nat) (s : Doomslug A H),
      (Doomslug.processTimerLoop t fuel s).1.approvalTracking = s.approvalTracking
  | 0, _ => rfl
  | fuel + 1, s => by
    simp only [Doomslug.processTimerLoop]
    split
    · rw [processTimerLoop_approvalTracking t fuel, timerIter_approvalTracking]
    · exact timerIter_approvalTracking s t

theorem ApprovalsConsistent.processTimer {s : Doomslug A H} (hs : s.ApprovalsConsistent)
    (t : Nat) : (s.processTimer t).1.ApprovalsConsistent := by
  intro h atHeight hat
  rw [Doomslug.processTimer, processTimerLoop_approvalTracking] at hat
  exact hs h atHeight hat

/-- Setting one height's trackers to consistent ones keeps every height consistent. -/
theorem ApprovalsConsistent.update {s : Doomslug A H} (hs : s.ApprovalsConsistent)
    (s' : Doomslug A H) (h₀ : Nat)
    {atHeight : DoomslugApprovalsTrackersAtHeight A H} (hc : atHeight.Consistent)
    (hs' : s'.approvalTracking = Function.update s.approvalTracking h₀ (some atHeight)) :
    s'.ApprovalsConsistent := by
  intro h a ha
  rw [hs'] at ha
  by_cases hh : h = h₀
  · subst hh
    rw [Function.update_self, Option.some_inj] at ha
    exact ha ▸ hc
  · rw [Function.update_of_ne hh] at ha
    exact hs h a ha

variable [DecidableEq H]

/-- `on_approval_message_internal` stores at the approval's height what `process_approval` made
of that height's trackers. -/
theorem onApprovalMessageInternal_approvalTracking {s : Doomslug A H} {now : Nat}
    {approval : Approval A H} {allPledge : List (ApprovalPledge A × Bool)}
    {r : Doomslug A H × DoomslugBlockProductionReadiness}
    (h : s.onApprovalMessageInternal now approval allPledge = some r) :
    ∃ q, ((s.approvalTracking approval.targetHeight).getD .new).processApproval now approval
        allPledge s.thresholdMode = some q ∧
      r.1.approvalTracking = Function.update s.approvalTracking approval.targetHeight (some q.1) := by
  unfold onApprovalMessageInternal at h
  obtain ⟨q, hq, hr⟩ := Option.bind_eq_some_iff.mp h
  refine ⟨q, hq, ?_⟩
  cases hr
  dsimp only
  split_ifs <;> rfl

theorem ApprovalsConsistent.onApprovalMessage {s : Doomslug A H} (hs : s.ApprovalsConsistent)
    (now : Nat) (approval : Approval A H) (allPledge : List (ApprovalPledge A × Bool)) :
    ((s.onApprovalMessage now approval allPledge).getD s).ApprovalsConsistent := by
  cases hm : s.onApprovalMessage now approval allPledge with
  | none => exact hs
  | some s' =>
    rw [Option.getD_some]
    unfold Doomslug.onApprovalMessage at hm
    split_ifs at hm
    · cases hm
      exact hs
    · obtain ⟨r, hr, rfl⟩ := Option.map_eq_some_iff.mp hm
      obtain ⟨q, hq, htrack⟩ := onApprovalMessageInternal_approvalTracking hr
      -- the height's trackers, or fresh ones, take the approval
      have hat : ((s.approvalTracking approval.targetHeight).getD .new).Consistent := by
        cases ht : s.approvalTracking approval.targetHeight with
        | none => exact DoomslugApprovalsTrackersAtHeight.consistent_new
        | some atHeight => exact hs _ _ ht
      exact hs.update _ _ (hat.processApproval hq) htrack

/-- `ready_to_produce_block` only marks when a tracker passed its threshold. -/
theorem ApprovalsConsistent.readyToProduceBlock {s : Doomslug A H} (hs : s.ApprovalsConsistent)
    (now targetHeight : Nat) (hasEnoughChunks : Bool) :
    (s.readyToProduceBlock now targetHeight hasEnoughChunks).1.ApprovalsConsistent := by
  unfold Doomslug.readyToProduceBlock
  dsimp only
  cases hat : s.approvalTracking targetHeight with
  | none => exact hs
  | some atHeight =>
    dsimp only
    cases ht : atHeight.approvalTrackers
        (ApprovalInner.new s.tip.blockHash s.tip.height targetHeight) with
    | none => exact hs
    | some t =>
      have hc := hs _ _ hat
      -- the marked tracker keeps its witness, so the height stays consistent
      have hc' := hc.update ((hc.accounted _ t ht).getBlockProductionReadiness now)
        (fun b hb => hc.lastApproval _ t b ht (by simpa using hb))
      have hs' := hs.update
        { s with approvalTracking := Function.update s.approvalTracking targetHeight (some _) }
        targetHeight hc' rfl
      dsimp only
      split <;> (try split) <;> exact hs'

theorem ApprovalsConsistent.step {s : Doomslug A H} (hs : s.ApprovalsConsistent)
    (e : DoomslugEvent A H) : (s.step e).1.ApprovalsConsistent := by
  cases e with
  | setTip now h height lfh => exact hs.setTip now h height lfh
  | processTimer t => exact hs.processTimer t
  | onApprovalMessage now a p => exact hs.onApprovalMessage now a p

theorem ApprovalsConsistent.run {s : Doomslug A H} (hs : s.ApprovalsConsistent) :
    ∀ evs : List (DoomslugEvent A H), (s.run evs).1.ApprovalsConsistent
  | [] => hs
  | e :: evs => (hs.step e).run evs

/-- An approval within the horizon of the tip, offered with a slashed producer among the pledges,
makes `on_approval_message` panic. -/
theorem onApprovalMessage_eq_none_of_slashed (s : Doomslug A H) (now : Nat)
    (approval : Approval A H) {allPledge : List (ApprovalPledge A × Bool)}
    (hlow : s.tip.height ≤ approval.targetHeight)
    (hhigh : approval.targetHeight ≤ s.tip.height + MAX_HEIGHTS_AHEAD_TO_STORE_APPROVALS)
    (hslashed : ∃ p ∈ allPledge, p.2 = true) :
    s.onApprovalMessage now approval allPledge = none := by
  have hnone := DoomslugApprovalsTrackersAtHeight.processApproval_eq_none_of_slashed
    ((s.approvalTracking approval.targetHeight).getD .new) now approval s.thresholdMode hslashed
  unfold Doomslug.onApprovalMessage onApprovalMessageInternal
  rw [if_neg (by omega)]
  simp [hnone]

/-- A fresh node at tip height `0` receives an endorsement for height `1` from producer `0`, while
producer `1` of the two in the list is slashed: the call panics. -/
theorem slashed_producer_panics_on_approval :
    (Doomslug.new 0 0 1 1 1 1 none .twoThirds : Doomslug Nat Nat).onApprovalMessage 0
        ⟨.endorsement 0, 1, 0⟩ [(⟨0, 10, 10⟩, false), (⟨1, 5, 5⟩, true)] = none := by
  rfl

-- the same call with producer `1` not slashed goes through
example :
    ((Doomslug.new 0 0 1 1 1 1 none .twoThirds : Doomslug Nat Nat).onApprovalMessage 0
        ⟨.endorsement 0, 1, 0⟩ [(⟨0, 10, 10⟩, false), (⟨1, 5, 5⟩, false)]).isSome := by
  rfl

/-- **Approval accounting over every run.** In every state that a run of `set_tip`,
`process_timer` and `on_approval_message` calls reaches from `Doomslug::new`, for every height
and every tracker kept there: the approved pledges of both epochs are the sums, over the
witness, of the pledges in the tracker's own map; every account of the witness approved that
tracker's parent last, so it is in no other tracker of the height; and `withdraw_approval`
subtracts no more than was approved. -/
theorem run_approvals_accounted [Inhabited H] (now lth ed md ds mx : Nat) (signer : Option A)
    (mode : DoomslugThresholdMode) (evs : List (DoomslugEvent A H)) (h : Nat)
    (atHeight : DoomslugApprovalsTrackersAtHeight A H) (p : ApprovalInner H)
    (t : DoomslugApprovalsTracker A H)
    (hat : ((Doomslug.new now lth ed md ds mx signer mode : Doomslug A H).run evs).1.approvalTracking h =
      some atHeight)
    (ht : atHeight.approvalTrackers p = some t) :
    t.approvedPledgeThisEpoch = t.witnessPledge Prod.fst ∧
      t.approvedPledgeNextEpoch = t.witnessPledge Prod.snd ∧
      (∀ a ∈ t.witness, atHeight.lastApprovalPerAccount a = some p ∧
        ∀ q u, atHeight.approvalTrackers q = some u → a ∈ u.witness → q = p) ∧
      ∀ a ∈ t.witness, (pledgesOf t.accountIdToPledges a).1 ≤ t.approvedPledgeThisEpoch ∧
        (pledgesOf t.accountIdToPledges a).2 ≤ t.approvedPledgeNextEpoch := by
  have hc := (approvalsConsistent_new now lth ed md ds mx signer mode).run evs h atHeight hat
  have hacc := hc.accounted p t ht
  refine ⟨hacc.thisEpoch, hacc.nextEpoch, fun a ha => ⟨hc.lastApproval p t a ht ha, ?_⟩,
    fun a ha => DoomslugApprovalsTracker.pledges_le_approved hacc ha⟩
  intro q u hu hau
  exact hc.witness_unique hu ht hau ha

end Doomslug

end Unc
