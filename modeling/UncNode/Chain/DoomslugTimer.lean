import UncNode.Chain.Doomslug

/-!
# Doomslug — this node's own approvals never conflict

The approvals a Doomslug instance returns all come from `process_timer`: an endorsement of the
tip once `endorsement_delay` has passed since the tip was set, and skips of `timer.height` each
time a skip delay runs out. The guard `tip_height >= largest_target_height` on the endorsement
and the `max` update on the skip keep `largestTargetHeight` above every approval sent, and keep
every endorsement's target strictly between the targets of the approvals around it.

* `timerEndorse_cases`, `timerSkip_cases`: what each half of one timer iteration can do;
* `TimerInv`: the invariant of a state and the approvals returned so far;
* `TimerInv.processTimer`, `TimerInv.setTip`, `TimerInv.onApprovalMessage`: every call keeps it;
* **`doomslug_approvals_never_conflict`**: over every run from `Doomslug.new` whose tips do
  not go back, `largestTargetHeight` never decreases, bounds every approval returned so far,
  and every endorsement is above all approvals before it and below all approvals after it.
-/

set_option autoImplicit false

namespace Unc

namespace Doomslug

variable {A H : Type} [DecidableEq A]

/-! ## Approvals created from a state -/

/-- Two approvals returned in this order do not conflict: an endorsement is above everything
before it and below everything after it. -/
def NoConflict (a b : Approval A H) : Prop :=
  (a.isEndorsement = true → a.targetHeight < b.targetHeight) ∧
    (b.isEndorsement = true → a.targetHeight < b.targetHeight)

theorem mem_createApproval {s : Doomslug A H} {t : Nat} {a : Approval A H}
    (h : a ∈ (s.createApproval t).toList) :
    a.targetHeight = t ∧ (a.isEndorsement = true ↔ t = s.tip.height + 1) := by
  obtain ⟨signer, -, rfl⟩ := Option.map_eq_some_iff.mp (Option.mem_toList.mp h)
  by_cases ht : t = s.tip.height + 1
  · simp [Approval.new, ApprovalInner.new, Approval.isEndorsement, ht]
  · simp [Approval.new, ApprovalInner.new, Approval.isEndorsement, ht]

theorem pairwise_toList {α : Type} (R : α → α → Prop) (o : Option α) : o.toList.Pairwise R := by
  cases o <;> simp

/-! ## The two halves of a timer iteration -/

section Endorse

variable (s : Doomslug A H) (t : Nat)

@[simp] theorem timerEndorse_tip : (s.timerEndorse t).1.tip = s.tip := by
  unfold timerEndorse; split_ifs <;> rfl

@[simp] theorem timerEndorse_timer_height : (s.timerEndorse t).1.timer.height = s.timer.height := by
  unfold timerEndorse; split_ifs <;> rfl

@[simp] theorem timerEndorse_timer_started :
    (s.timerEndorse t).1.timer.started = s.timer.started := by
  unfold timerEndorse; split_ifs <;> rfl

@[simp] theorem timerEndorse_largestFinalHeight :
    (s.timerEndorse t).1.largestFinalHeight = s.largestFinalHeight := by
  unfold timerEndorse; split_ifs <;> rfl

@[simp] theorem timerEndorse_signer : (s.timerEndorse t).1.signer = s.signer := by
  unfold timerEndorse; split_ifs <;> rfl

theorem timerEndorse_pending (h : (s.timerEndorse t).1.endorsementPending = true) :
    s.endorsementPending = true := by
  -- both endorsing branches reset the pending flag
  unfold timerEndorse at h
  split_ifs at h
  exact h

/-- **What the endorsement half can do**: nothing, or, with an endorsement pending and the tip
not below `largestTargetHeight`, raise it to the tip plus one and endorse the tip. -/
theorem timerEndorse_cases :
    ((s.timerEndorse t).1.largestTargetHeight = s.largestTargetHeight ∧ (s.timerEndorse t).2 = []) ∨
      (s.endorsementPending = true ∧ s.largestTargetHeight ≤ s.tip.height ∧
        (s.timerEndorse t).1.largestTargetHeight = s.tip.height + 1 ∧
        (s.timerEndorse t).2 = (s.createApproval (s.tip.height + 1)).toList) := by
  unfold timerEndorse
  split_ifs with hc hge
  · exact .inr ⟨hc.1, hge, rfl, rfl⟩
  · exact .inl ⟨rfl, rfl⟩
  · exact .inl ⟨rfl, rfl⟩

end Endorse

section Skip

variable (s : Doomslug A H) (t : Nat) (d : Nat)

@[simp] theorem timerSkip_tip : (s.timerSkip t d).1.tip = s.tip := by
  unfold timerSkip; split_ifs <;> rfl

@[simp] theorem timerSkip_pending :
    (s.timerSkip t d).1.endorsementPending = s.endorsementPending := by
  unfold timerSkip; split_ifs <;> rfl

@[simp] theorem timerSkip_signer : (s.timerSkip t d).1.signer = s.signer := by
  unfold timerSkip; split_ifs <;> rfl

/-- **What the skip half can do**: nothing (and stop the loop), or raise `largestTargetHeight`
to at least `timer.height + 1`, approve that height and move the timer one height on. -/
theorem timerSkip_cases :
    s.timerSkip t d = (s, [], false) ∨
      ((s.timerSkip t d).1.largestTargetHeight = max (s.timer.height + 1) s.largestTargetHeight ∧
        (s.timerSkip t d).1.timer.height = s.timer.height + 1 ∧
        (s.timerSkip t d).2.1 = (s.createApproval (s.timer.height + 1)).toList) := by
  unfold timerSkip
  split_ifs
  · exact .inr ⟨rfl, rfl, rfl⟩
  · exact .inl rfl

end Skip

/-! ## The invariant -/

/-- The invariant of a state `s` and the approvals `L` it has returned. -/
structure TimerInv (s : Doomslug A H) (L : List (Approval A H)) : Prop where
  /-- No approval returned is above `largestTargetHeight`. -/
  target_le : ∀ a ∈ L, a.targetHeight ≤ s.largestTargetHeight
  /-- An endorsement returned endorsed a tip not above the current one. -/
  endorse_le_tip : ∀ a ∈ L, a.isEndorsement = true → a.targetHeight ≤ s.tip.height + 1
  /-- The next skip is above every endorsement returned. -/
  endorse_le_timer : ∀ a ∈ L, a.isEndorsement = true → a.targetHeight ≤ s.timer.height
  /-- The timer runs above the tip, except before the first tip and the first approval. -/
  timer_above_tip : s.tip.height + 1 ≤ s.timer.height ∨
    (s.tip.height = 0 ∧ s.timer.height = 0 ∧ L = [] ∧ s.endorsementPending = false)
  /-- The approvals returned do not conflict. -/
  ordered : L.Pairwise NoConflict

variable {s : Doomslug A H} {L : List (Approval A H)}

theorem TimerInv.new [Inhabited H] (now : Nat) (lth : Nat) (ed md ds mx : Nat)
    (signer : Option A) (mode : DoomslugThresholdMode) :
    TimerInv (Doomslug.new (H := H) now lth ed md ds mx signer mode) [] :=
  { target_le := by simp
    endorse_le_tip := by simp
    endorse_le_timer := by simp
    timer_above_tip := .inr ⟨rfl, rfl, rfl, rfl⟩
    ordered := List.Pairwise.nil }

/-- The endorsement half keeps the invariant. An endorsement is issued only if the tip is not
below `largestTargetHeight`, so it is above every approval returned so far. -/
theorem TimerInv.timerEndorse (hi : TimerInv s L) (t : Nat) :
    TimerInv (s.timerEndorse t).1 (L ++ (s.timerEndorse t).2) := by
  rcases timerEndorse_cases s t with ⟨hlth, hout⟩ | ⟨hpend, hge, hlth, hout⟩
  · rw [hout, List.append_nil]
    exact
      { target_le := fun a ha => hlth ▸ hi.target_le a ha
        endorse_le_tip := by simpa using hi.endorse_le_tip
        endorse_le_timer := by simpa using hi.endorse_le_timer
        timer_above_tip := by
          rcases hi.timer_above_tip with h | ⟨h1, h2, h3, h4⟩
          · exact .inl (by simpa using h)
          · refine .inr ⟨by simpa using h1, by simpa using h2, h3, ?_⟩
            cases hp : (s.timerEndorse t).1.endorsementPending
            · rfl
            · rw [timerEndorse_pending s t hp] at h4; exact h4
        ordered := hi.ordered }
  · -- an endorsement is pending, so the timer is already above the tip
    have htimer : s.tip.height + 1 ≤ s.timer.height := by
      rcases hi.timer_above_tip with h | ⟨-, -, -, h⟩
      · exact h
      · rw [hpend] at h; contradiction
    have hnew : ∀ a ∈ (s.timerEndorse t).2, a.targetHeight = s.tip.height + 1 := by
      intro a ha; rw [hout] at ha; exact (mem_createApproval ha).1
    rw [hout] at hnew
    refine
      { target_le := ?_, endorse_le_tip := ?_, endorse_le_timer := ?_, timer_above_tip := ?_,
        ordered := ?_ }
    · intro a ha
      rw [hlth]
      rcases List.mem_append.mp ha with ha | ha
      · have := hi.target_le a ha; omega
      · rw [hout] at ha; rw [hnew a ha]
    · intro a ha hend
      rcases List.mem_append.mp ha with ha | ha
      · simpa using hi.endorse_le_tip a ha hend
      · rw [hout] at ha; simp [hnew a ha]
    · intro a ha hend
      rcases List.mem_append.mp ha with ha | ha
      · simpa using hi.endorse_le_timer a ha hend
      · rw [hout] at ha; simpa [hnew a ha] using htimer
    · exact .inl (by simpa using htimer)
    · rw [hout, List.pairwise_append]
      refine ⟨hi.ordered, pairwise_toList _ _, fun a ha b hb => ?_⟩
      have hb' := hnew b hb
      have ha' := hi.target_le a ha
      constructor <;> intro _ <;> omega

/-- The skip half keeps the invariant. A skip targets `timer.height + 1`, above every
endorsement returned; it is itself an endorsement only before the first tip is set, when
nothing has been returned yet. -/
theorem TimerInv.timerSkip (hi : TimerInv s L) (t : Nat) (d : Nat) :
    TimerInv (s.timerSkip t d).1 (L ++ (s.timerSkip t d).2.1) := by
  rcases timerSkip_cases s t d with hnil | ⟨hlth, hth, hout⟩
  · rw [hnil, List.append_nil]; exact hi
  have hnew : ∀ a ∈ (s.createApproval (s.timer.height + 1)).toList,
      a.targetHeight = s.timer.height + 1 ∧
        (a.isEndorsement = true → s.timer.height = s.tip.height) := by
    intro a ha
    obtain ⟨h1, h2⟩ := mem_createApproval ha
    exact ⟨h1, fun he => by have := h2.mp he; omega⟩
  rw [hout]
  refine
    { target_le := ?_, endorse_le_tip := ?_, endorse_le_timer := ?_, timer_above_tip := ?_,
      ordered := ?_ }
  · intro a ha
    rw [hlth]
    rcases List.mem_append.mp ha with ha | ha
    · have := hi.target_le a ha; omega
    · rw [(hnew a ha).1]; omega
  · intro a ha hend
    rcases List.mem_append.mp ha with ha | ha
    · simpa using hi.endorse_le_tip a ha hend
    · have := (hnew a ha).2 hend; rw [(hnew a ha).1]; simp; omega
  · intro a ha hend
    rw [hth]
    rcases List.mem_append.mp ha with ha | ha
    · have := hi.endorse_le_timer a ha hend; omega
    · rw [(hnew a ha).1]
  · rcases hi.timer_above_tip with h | ⟨h1, h2, -, -⟩
    · exact .inl (by simp; omega)
    · exact .inl (by simp; omega)
  · rw [List.pairwise_append]
    refine ⟨hi.ordered, pairwise_toList _ _, fun a ha b hb => ⟨fun hend => ?_, fun hend => ?_⟩⟩
    · have := hi.endorse_le_timer a ha hend
      rw [(hnew b hb).1]; omega
    · -- a skip that endorses comes before any other approval
      have heq := (hnew b hb).2 hend
      rcases hi.timer_above_tip with h | ⟨-, -, hL, -⟩
      · omega
      · rw [hL] at ha; simp at ha

/-! ## The calls -/

@[simp] theorem timerIter_tip (s : Doomslug A H) (t : Nat) : (s.timerIter t).1.tip = s.tip := by
  unfold timerIter
  simp

theorem TimerInv.timerIter (hi : TimerInv s L) (t : Nat) :
    TimerInv (s.timerIter t).1 (L ++ (s.timerIter t).2.1) := by
  have h := (hi.timerEndorse t).timerSkip t s.skipDelay
  rw [List.append_assoc] at h
  exact h

theorem TimerInv.processTimerLoop (t : Nat) :
    ∀ (fuel : Nat) {s : Doomslug A H} {L : List (Approval A H)}, TimerInv s L →
      TimerInv (Doomslug.processTimerLoop t fuel s).1 (L ++ (Doomslug.processTimerLoop t fuel s).2)
  | 0, _, _, hi => by simpa [Doomslug.processTimerLoop] using hi
  | fuel + 1, s, L, hi => by
    have h1 := hi.timerIter t
    simp only [Doomslug.processTimerLoop]
    split
    · have h2 := TimerInv.processTimerLoop t fuel h1
      rw [List.append_assoc] at h2
      exact h2
    · exact h1

theorem TimerInv.processTimer (hi : TimerInv s L) (t : Nat) :
    TimerInv (s.processTimer t).1 (L ++ (s.processTimer t).2) :=
  TimerInv.processTimerLoop t MAX_TIMER_ITERS hi

/-- `set_tip` keeps the invariant when the tip does not go back. -/
theorem TimerInv.setTip (hi : TimerInv s L) (now : Nat) (h : H) (height lfh : Nat)
    (hh : s.tip.height ≤ height) : TimerInv (s.setTip now h height lfh) L :=
  { target_le := hi.target_le
    endorse_le_tip := fun a ha hend => by
      have := hi.endorse_le_tip a ha hend
      simp only [Doomslug.setTip]; omega
    endorse_le_timer := fun a ha hend => by
      have := hi.endorse_le_tip a ha hend
      simp only [Doomslug.setTip]; omega
    timer_above_tip := .inl (by simp [Doomslug.setTip])
    ordered := hi.ordered }

variable [DecidableEq H]

theorem onApprovalMessage_frame {s s' : Doomslug A H} {now : Nat} {a : Approval A H}
    {p : List (ApprovalPledge A × Bool)} (h : s.onApprovalMessage now a p = some s') :
    s'.largestTargetHeight = s.largestTargetHeight ∧ s'.tip = s.tip ∧ s'.timer = s.timer ∧
      s'.endorsementPending = s.endorsementPending := by
  unfold onApprovalMessage at h
  split_ifs at h
  · cases h; exact ⟨rfl, rfl, rfl, rfl⟩
  · obtain ⟨r, hr, rfl⟩ := Option.map_eq_some_iff.mp h
    unfold onApprovalMessageInternal at hr
    obtain ⟨q, -, hq⟩ := Option.bind_eq_some_iff.mp hr
    cases hq
    split_ifs <;> exact ⟨rfl, rfl, rfl, rfl⟩

/-- `on_approval_message` changes none of the fields the invariant reads. -/
theorem TimerInv.onApprovalMessage (hi : TimerInv s L) (now : Nat) (a : Approval A H)
    (p : List (ApprovalPledge A × Bool)) : TimerInv ((s.onApprovalMessage now a p).getD s) L := by
  cases h : s.onApprovalMessage now a p with
  | none => exact hi
  | some s' =>
    obtain ⟨h1, h2, h3, h4⟩ := onApprovalMessage_frame h
    exact
      { target_le := by simpa [h1] using hi.target_le
        endorse_le_tip := by simpa [h2] using hi.endorse_le_tip
        endorse_le_timer := by simpa [h3] using hi.endorse_le_timer
        timer_above_tip := by simpa [h2, h3, h4] using hi.timer_above_tip
        ordered := hi.ordered }

/-! ## Runs -/

theorem step_largestTargetHeight_le (s : Doomslug A H) (e : DoomslugEvent A H) :
    s.largestTargetHeight ≤ (s.step e).1.largestTargetHeight := by
  cases e with
  | setTip now h height lfh => exact le_refl _
  | onApprovalMessage now a p =>
    cases h : s.onApprovalMessage now a p with
    | none => simp [step, h]
    | some s' => simp [step, h, (onApprovalMessage_frame h).1]
  | processTimer t =>
    -- the timer loop only ever raises `largestTargetHeight`
    have hloop : ∀ (fuel : Nat) (s : Doomslug A H),
        s.largestTargetHeight ≤ (Doomslug.processTimerLoop t fuel s).1.largestTargetHeight := by
      intro fuel
      induction fuel with
      | zero => intro s; exact le_refl _
      | succ fuel ih =>
        intro s
        have h1 : s.largestTargetHeight ≤ (s.timerIter t).1.largestTargetHeight := by
          have he : s.largestTargetHeight ≤ (s.timerEndorse t).1.largestTargetHeight := by
            rcases timerEndorse_cases s t with ⟨h, -⟩ | ⟨-, hge, h, -⟩ <;> omega
          rcases timerSkip_cases (s.timerEndorse t).1 t s.skipDelay with h | ⟨h, -, -⟩
          · simp only [timerIter, h]; exact he
          · simp only [timerIter, h]; omega
        simp only [Doomslug.processTimerLoop]
        split
        · exact le_trans h1 (ih _)
        · exact h1
    exact hloop MAX_TIMER_ITERS s

theorem run_largestTargetHeight_le (s : Doomslug A H) :
    ∀ evs : List (DoomslugEvent A H), s.largestTargetHeight ≤ (s.run evs).1.largestTargetHeight
  | [] => le_refl _
  | e :: evs => le_trans (step_largestTargetHeight_le s e) (run_largestTargetHeight_le _ evs)

theorem run_append (s : Doomslug A H) (evs₁ evs₂ : List (DoomslugEvent A H)) :
    s.run (evs₁ ++ evs₂) =
      ((((s.run evs₁).1).run evs₂).1, (s.run evs₁).2 ++ (((s.run evs₁).1).run evs₂).2) := by
  induction evs₁ generalizing s with
  | nil => rfl
  | cons e evs₁ ih => simp [run, ih]

/-- **The invariant holds along every run** whose tips do not go back. -/
theorem TimerInv.run :
    ∀ (evs : List (DoomslugEvent A H)) {s : Doomslug A H} {L : List (Approval A H)},
      TimerInv s L → (∀ h ∈ DoomslugEvent.tipHeights evs, s.tip.height ≤ h) →
      (DoomslugEvent.tipHeights evs).Pairwise (· ≤ ·) → TimerInv (s.run evs).1 (L ++ (s.run evs).2)
  | [], _, _, hi, _, _ => by simpa [Doomslug.run] using hi
  | .setTip now h height lfh :: evs, s, L, hi, hle, hpw => by
    simp only [DoomslugEvent.tipHeights, List.mem_cons, forall_eq_or_imp,
      List.pairwise_cons] at hle hpw
    have h1 := hi.setTip now h height lfh hle.1
    have h2 := TimerInv.run evs h1 (fun x hx => by simpa [Doomslug.setTip] using hpw.1 x hx) hpw.2
    simpa [Doomslug.run, step] using h2
  | .processTimer t :: evs, s, L, hi, hle, hpw => by
    have h1 := hi.processTimer t
    have hle' : ∀ x ∈ DoomslugEvent.tipHeights evs, (s.processTimer t).1.tip.height ≤ x := by
      -- the timer loop does not move the tip
      have htip : ∀ (fuel : Nat) (s : Doomslug A H),
          (Doomslug.processTimerLoop t fuel s).1.tip = s.tip := by
        intro fuel
        induction fuel with
        | zero => intro s; rfl
        | succ fuel ih =>
          intro s
          simp only [Doomslug.processTimerLoop]
          split
          · rw [ih, timerIter_tip]
          · exact timerIter_tip s t
      intro x hx
      rw [Doomslug.processTimer, htip]
      exact hle x (by simpa [DoomslugEvent.tipHeights] using hx)
    have h2 := TimerInv.run evs h1 hle' (by simpa [DoomslugEvent.tipHeights] using hpw)
    rw [List.append_assoc] at h2
    simpa [Doomslug.run, step] using h2
  | .onApprovalMessage now a p :: evs, s, L, hi, hle, hpw => by
    have h1 := hi.onApprovalMessage now a p
    have hle' : ∀ x ∈ DoomslugEvent.tipHeights evs,
        ((s.onApprovalMessage now a p).getD s).tip.height ≤ x := by
      intro x hx
      cases h : s.onApprovalMessage now a p with
      | none => exact hle x (by simpa [DoomslugEvent.tipHeights] using hx)
      | some s' =>
        rw [Option.getD_some, (onApprovalMessage_frame h).2.1]
        exact hle x (by simpa [DoomslugEvent.tipHeights] using hx)
    have h2 := TimerInv.run evs h1 hle' (by simpa [DoomslugEvent.tipHeights] using hpw)
    simpa [Doomslug.run, step] using h2

omit [DecidableEq A] [DecidableEq H] in
theorem tipHeights_append (evs₁ evs₂ : List (DoomslugEvent A H)) :
    DoomslugEvent.tipHeights (evs₁ ++ evs₂) =
      DoomslugEvent.tipHeights evs₁ ++ DoomslugEvent.tipHeights evs₂ := by
  induction evs₁ with
  | nil => rfl
  | cons e evs₁ ih => cases e <;> simp [DoomslugEvent.tipHeights, ih]

/-- The three guarantees of the Doomslug timer over the run `evs` from `s₀`: along every
prefix `largestTargetHeight` does not decrease and bounds every approval returned so far, and
every endorsement returned is above all approvals before it and below all approvals after it. -/
def ApprovalsNeverConflict (s₀ : Doomslug A H) (evs : List (DoomslugEvent A H)) : Prop :=
  (∀ evs₁ evs₂ evs₃, evs = evs₁ ++ evs₂ ++ evs₃ →
    (s₀.run evs₁).1.largestTargetHeight ≤ (s₀.run (evs₁ ++ evs₂)).1.largestTargetHeight) ∧
  (∀ evs₁ evs₂, evs = evs₁ ++ evs₂ →
    ∀ a ∈ (s₀.run evs₁).2, a.targetHeight ≤ (s₀.run evs₁).1.largestTargetHeight) ∧
  (∀ pre e post, (s₀.run evs).2 = pre ++ e :: post → e.isEndorsement = true →
    (∀ a ∈ pre, a.targetHeight < e.targetHeight) ∧ (∀ a ∈ post, e.targetHeight < a.targetHeight))

/-- **Doomslug never lets this node's own approvals conflict.** For every run of a fresh
instance in which the tips passed to `set_tip` do not go back (in particular when they strictly
increase), with `process_timer` and `on_approval_message` calls at any times and in any order,
`largestTargetHeight` never decreases and bounds every approval returned so far, and every
endorsement returned lies strictly above the approvals before it and strictly below those after
it. -/
theorem doomslug_approvals_never_conflict [Inhabited H] (now lth : Nat)
    (endorsementDelay minDelay delayStep maxDelay : Nat) (signer : Option A)
    (mode : DoomslugThresholdMode) (evs : List (DoomslugEvent A H))
    (htips : (DoomslugEvent.tipHeights evs).Pairwise (· ≤ ·)) :
    ApprovalsNeverConflict
      (Doomslug.new now lth endorsementDelay minDelay delayStep maxDelay signer mode) evs := by
  set s₀ : Doomslug A H :=
    Doomslug.new now lth endorsementDelay minDelay delayStep maxDelay signer mode
  -- the invariant after any prefix of the run
  have hpre : ∀ evs₁ evs₂, evs = evs₁ ++ evs₂ → TimerInv (s₀.run evs₁).1 (s₀.run evs₁).2 := by
    intro evs₁ evs₂ hsplit
    rw [hsplit, tipHeights_append, List.pairwise_append] at htips
    simpa using TimerInv.run evs₁ (TimerInv.new now lth endorsementDelay minDelay delayStep
      maxDelay signer mode) (fun h _ => Nat.zero_le h) htips.1
  refine ⟨fun evs₁ evs₂ evs₃ _ => ?_, fun evs₁ evs₂ hsplit => (hpre evs₁ evs₂ hsplit).target_le,
    fun pre e post hL hend => ?_⟩
  · rw [run_append]
    exact run_largestTargetHeight_le _ evs₂
  · have hord := (hpre evs [] (List.append_nil evs).symm).ordered
    rw [hL, List.pairwise_append, List.pairwise_cons] at hord
    obtain ⟨-, ⟨hafter, -⟩, hbefore⟩ := hord
    exact ⟨fun a ha => (hbefore a ha e List.mem_cons_self).2 hend,
      fun a ha => (hafter a ha).1 hend⟩

/-- The run of the source's `test_endorsements_and_skips_basic` up to its first skip. -/
def basicTestRun : List (DoomslugEvent Nat Nat) :=
  [.setTip 0 1 1 1, .processTimer 399, .processTimer 400, .processTimer 1000, .setTip 1000 2 2 0,
    .processTimer 1400]

theorem doomslug_approvals_never_conflict_basic :
    (DoomslugEvent.tipHeights basicTestRun).Pairwise (· ≤ ·) ∧
      ApprovalsNeverConflict (Doomslug.new 0 0 400 1000 100 3000 (some 7) .twoThirds)
        basicTestRun :=
  ⟨by decide, doomslug_approvals_never_conflict 0 0 400 1000 100 3000 (some 7) .twoThirds
    basicTestRun (by decide)⟩

end Doomslug

end Unc
