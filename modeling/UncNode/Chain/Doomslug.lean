import Mathlib

/-!
# Doomslug — the state machine of `chain/chain/src/doomslug.rs`

The struct `Doomslug` holds the approvals this node has received (per target height, per
approved parent), the largest heights it has seen or approved, the chain tip and the timer that
drives endorsements and skips. Three entry points change it: `set_tip`, `process_timer`, which
returns the approvals this node sends, and `on_approval_message`.

* `DoomslugApprovalsTracker` and its `process_approval`, `withdraw_approval` and
  `get_block_production_readiness`;
* `DoomslugApprovalsTrackersAtHeight.process_approval`, which keeps one approval per account;
* `Doomslug.processTimer`, `Doomslug.setTip`, `Doomslug.onApprovalMessage`,
  `Doomslug.readyToProduceBlock`, `Doomslug.canApprovedBlockBeProduced`;
* `DoomslugEvent`, `Doomslug.step` and `Doomslug.run`: a run is a list of calls, and the
  approvals a run returns are those of its `process_timer` calls, in order.

Heights, balances (`u128`), instants and durations are natural numbers: an instant is a count
of time units and a duration a difference of them. The debugging history, the metrics gauges and the wall-clock
arrival times of witnesses are not modelled; nothing the node decides reads them.
-/

set_option autoImplicit false

namespace Unc

/-- Have that many iterations in the timer instead of `loop`. -/
def MAX_TIMER_ITERS : Nat := 20

/-- How many heights ahead to track approvals. -/
def MAX_HEIGHTS_AHEAD_TO_STORE_APPROVALS : Nat := 10000

/-- Number of blocks before the head for which approvals are kept. -/
def MAX_HEIGHTS_BEFORE_TO_STORE_APPROVALS : Nat := 20

/-! ## Approvals -/

/-- What an approval approves: a block hash (endorsement) or a parent height (skip). -/
inductive ApprovalInner (H : Type) where
  | endorsement (parentHash : H)
  | skip (parentHeight : Nat)
  deriving DecidableEq, Repr

/-- An approval of `account_id` for `target_height`. The signature is not modelled: Doomslug
only records whether an account approved. -/
structure Approval (A H : Type) where
  inner : ApprovalInner H
  targetHeight : Nat
  accountId : A
  deriving DecidableEq, Repr

variable {A H : Type}

/-- `ApprovalInner::new`: an endorsement iff the target is the parent's height plus one. -/
def ApprovalInner.new (parentHash : H) (parentHeight targetHeight : Nat) :
    ApprovalInner H :=
  if targetHeight = parentHeight + 1 then .endorsement parentHash else .skip parentHeight

/-- `Approval::new`, signed by the validator `signer`. -/
def Approval.new (parentHash : H) (parentHeight targetHeight : Nat) (signer : A) :
    Approval A H :=
  { inner := ApprovalInner.new parentHash parentHeight targetHeight
    targetHeight := targetHeight
    accountId := signer }

/-- The approval is an endorsement of its parent. -/
def Approval.isEndorsement (a : Approval A H) : Bool :=
  match a.inner with
  | .endorsement _ => true
  | .skip _ => false

/-- `ApprovalPledge`: the pledges of a block producer this epoch and next epoch. -/
structure ApprovalPledge (A : Type) where
  accountId : A
  pledgeThisEpoch : Nat
  pledgeNextEpoch : Nat
  deriving DecidableEq, Repr

/-- `DoomslugThresholdMode`. -/
inductive DoomslugThresholdMode where
  | noApprovals
  | twoThirds
  deriving DecidableEq, Repr

/-- `DoomslugBlockProductionReadiness`. -/
inductive DoomslugBlockProductionReadiness where
  | notReady
  | readySince (t : Nat)
  deriving DecidableEq, Repr

/-! ## The approvals tracker of one approved parent -/

/-- `DoomslugApprovalsTracker`; `witness` maps an account to its approval. -/
structure DoomslugApprovalsTracker (A H : Type) [DecidableEq A] where
  witness : AList fun _ : A => Approval A H
  accountIdToPledges : AList fun _ : A => Nat × Nat
  totalPledgeThisEpoch : Nat
  approvedPledgeThisEpoch : Nat
  totalPledgeNextEpoch : Nat
  approvedPledgeNextEpoch : Nat
  timePassedThreshold : Option Nat
  thresholdMode : DoomslugThresholdMode

section Tracker

variable [DecidableEq A]

/-- The sum of the first (this epoch) pledges of a pledge map. -/
def sumThisEpoch (m : AList fun _ : A => Nat × Nat) : Nat :=
  (m.entries.map fun e => e.2.1).sum

/-- The sum of the second (next epoch) pledges of a pledge map. -/
def sumNextEpoch (m : AList fun _ : A => Nat × Nat) : Nat :=
  (m.entries.map fun e => e.2.2).sum

/-- The pledges of an account in a pledge map, `(0, 0)` if it has none. -/
def pledgesOf (m : AList fun _ : A => Nat × Nat) (a : A) : Nat × Nat :=
  (m.lookup a).getD (0, 0)

/-- `DoomslugApprovalsTracker::new`. -/
def DoomslugApprovalsTracker.new (accountIdToPledges : AList fun _ : A => Nat × Nat)
    (thresholdMode : DoomslugThresholdMode) : DoomslugApprovalsTracker A H :=
  { witness := ∅
    accountIdToPledges := accountIdToPledges
    totalPledgeThisEpoch := sumThisEpoch accountIdToPledges
    approvedPledgeThisEpoch := 0
    totalPledgeNextEpoch := sumNextEpoch accountIdToPledges
    approvedPledgeNextEpoch := 0
    timePassedThreshold := none
    thresholdMode := thresholdMode }

namespace DoomslugApprovalsTracker

/-- The threshold test of `get_block_production_readiness`. -/
def passesThreshold (t : DoomslugApprovalsTracker A H) : Bool :=
  (decide (t.approvedPledgeThisEpoch > t.totalPledgeThisEpoch * 2 / 3) &&
      (decide (t.approvedPledgeNextEpoch > t.totalPledgeNextEpoch * 2 / 3) ||
        decide (t.totalPledgeNextEpoch = 0))) ||
    decide (t.thresholdMode = .noApprovals)

/-- `get_block_production_readiness`: once the threshold is passed the first moment is kept. -/
def getBlockProductionReadiness (t : DoomslugApprovalsTracker A H) (now : Nat) :
    DoomslugApprovalsTracker A H × DoomslugBlockProductionReadiness :=
  if t.passesThreshold then
    match t.timePassedThreshold with
    | some when => (t, .readySince when)
    | none => ({ t with timePassedThreshold := some now }, .readySince now)
  else (t, .notReady)

/-- `process_approval`: the first approval of an account adds its pledges. -/
def processApproval (t : DoomslugApprovalsTracker A H) (now : Nat) (approval : Approval A H) :
    DoomslugApprovalsTracker A H × DoomslugBlockProductionReadiness :=
  let t' : DoomslugApprovalsTracker A H :=
    if approval.accountId ∈ t.witness then t
    else
      let pledges := pledgesOf t.accountIdToPledges approval.accountId
      { t with
        witness := t.witness.insert approval.accountId approval
        approvedPledgeThisEpoch := t.approvedPledgeThisEpoch + pledges.1
        approvedPledgeNextEpoch := t.approvedPledgeNextEpoch + pledges.2 }
  t'.getBlockProductionReadiness now

/-- `withdraw_approval`: removes the account's approval and its pledges. The subtractions are
those of the source, on `u128`; here they truncate at `0`. -/
def withdrawApproval (t : DoomslugApprovalsTracker A H) (accountId : A) :
    DoomslugApprovalsTracker A H :=
  match t.witness.lookup accountId with
  | none => t
  | some approval =>
    let pledges := pledgesOf t.accountIdToPledges approval.accountId
    { t with
      witness := t.witness.erase accountId
      approvedPledgeThisEpoch := t.approvedPledgeThisEpoch - pledges.1
      approvedPledgeNextEpoch := t.approvedPledgeNextEpoch - pledges.2 }

end DoomslugApprovalsTracker

/-! ## The trackers of one target height -/

/-- `DoomslugApprovalsTrackersAtHeight`: one tracker per approved parent, and the parent each
account approved last. -/
structure DoomslugApprovalsTrackersAtHeight (A H : Type) [DecidableEq A] where
  approvalTrackers : ApprovalInner H → Option (DoomslugApprovalsTracker A H)
  lastApprovalPerAccount : A → Option (ApprovalInner H)

/-- `DoomslugApprovalsTrackersAtHeight::new`. -/
def DoomslugApprovalsTrackersAtHeight.new : DoomslugApprovalsTrackersAtHeight A H :=
  { approvalTrackers := fun _ => none
    lastApprovalPerAccount := fun _ => none }

/-- The pledge map of the non-slashed producers, as `collect::<HashMap<_, _>>()` builds it: a
later entry of an account replaces an earlier one. -/
def pledgeMap (pledges : List (ApprovalPledge A × Bool)) : AList fun _ : A => Nat × Nat :=
  pledges.foldl
    (fun m p => if p.2 then m else m.insert p.1.accountId (p.1.pledgeThisEpoch, p.1.pledgeNextEpoch))
    ∅

variable [DecidableEq H]

namespace DoomslugApprovalsTrackersAtHeight

/-- The first half of `process_approval`: withdraw the account's previous approval from the
tracker of the parent it approved last, and drop that tracker if its witness became empty. -/
def withdrawLast (s : DoomslugApprovalsTrackersAtHeight A H) (accountId : A) :
    DoomslugApprovalsTrackersAtHeight A H :=
  match s.lastApprovalPerAccount accountId with
  | none => s
  | some lastParent =>
    match s.approvalTrackers lastParent with
    | none => s
    | some t =>
      let t' := t.withdrawApproval accountId
      { s with
        approvalTrackers := Function.update s.approvalTrackers lastParent
          (if t'.witness.entries = [] then none else some t') }

/-- `process_approval`. The source asserts that no producer is slashed or listed twice
(`assert_eq!` on the map's length); the model returns `none` where that assertion fails. -/
def processApproval (s : DoomslugApprovalsTrackersAtHeight A H) (now : Nat)
    (approval : Approval A H) (pledges : List (ApprovalPledge A × Bool))
    (thresholdMode : DoomslugThresholdMode) :
    Option (DoomslugApprovalsTrackersAtHeight A H × DoomslugBlockProductionReadiness) :=
  let s₁ := s.withdrawLast approval.accountId
  let accountIdToPledges := pledgeMap pledges
  if accountIdToPledges.entries.length ≠ pledges.length then none
  else if approval.accountId ∉ accountIdToPledges then some (s₁, .notReady)
  else
    let t := (s₁.approvalTrackers approval.inner).getD
      (DoomslugApprovalsTracker.new accountIdToPledges thresholdMode)
    let r := t.processApproval now approval
    some ({ approvalTrackers := Function.update s₁.approvalTrackers approval.inner (some r.1)
            lastApprovalPerAccount :=
              Function.update s₁.lastApprovalPerAccount approval.accountId
                (some approval.inner) }, r.2)

end DoomslugApprovalsTrackersAtHeight

end Tracker

/-! ## The Doomslug state -/

/-- `DoomslugTimer`. -/
structure DoomslugTimer where
  started : Nat
  lastEndorsementSent : Nat
  height : Nat
  endorsementDelay : Nat
  minDelay : Nat
  delayStep : Nat
  maxDelay : Nat
  deriving DecidableEq, Repr

/-- `DoomslugTimer::get_delay`: the delay before a skip, growing with the distance `n` from
the last final height. -/
def DoomslugTimer.getDelay (t : DoomslugTimer) (n : Nat) : Nat :=
  let n32 := min n (2 ^ 32 - 1)
  min t.maxDelay (t.minDelay + t.delayStep * (n32 - 2))

/-- `DoomslugTip`. -/
structure DoomslugTip (H : Type) where
  blockHash : H
  height : Nat
  deriving DecidableEq, Repr

/-- `Doomslug`; `signer` is the account of the validator signer, if any. -/
structure Doomslug (A H : Type) [DecidableEq A] where
  approvalTracking : Nat → Option (DoomslugApprovalsTrackersAtHeight A H)
  largestTargetHeight : Nat
  largestFinalHeight : Nat
  largestThresholdHeight : Nat
  largestApprovalHeight : Nat
  tip : DoomslugTip H
  endorsementPending : Bool
  timer : DoomslugTimer
  signer : Option A
  thresholdMode : DoomslugThresholdMode

section Doomslug

variable [DecidableEq A]

/-- `Doomslug::new`, started at time `now`; the tip is the default hash at height `0`. -/
def Doomslug.new [Inhabited H] (now : Nat) (largestTargetHeight : Nat)
    (endorsementDelay minDelay delayStep maxDelay : Nat) (signer : Option A)
    (thresholdMode : DoomslugThresholdMode) : Doomslug A H :=
  { approvalTracking := fun _ => none
    largestTargetHeight := largestTargetHeight
    largestFinalHeight := 0
    largestThresholdHeight := 0
    largestApprovalHeight := 0
    tip := { blockHash := default, height := 0 }
    endorsementPending := false
    timer :=
      { started := now, lastEndorsementSent := now, height := 0,
        endorsementDelay := endorsementDelay, minDelay := minDelay, delayStep := delayStep,
        maxDelay := maxDelay }
    signer := signer
    thresholdMode := thresholdMode }

namespace Doomslug

/-- `create_approval`: an approval of the tip for `targetHeight`, if this node signs. -/
def createApproval (s : Doomslug A H) (targetHeight : Nat) : Option (Approval A H) :=
  s.signer.map (Approval.new s.tip.blockHash s.tip.height targetHeight)

/-- The endorsement half of one iteration of the `process_timer` loop: once the endorsement
delay has passed, endorse the tip unless an approval for a height above it was already sent.
The approval is made from the tip and signer, which the update of `largestTargetHeight` keeps. -/
def timerEndorse (s : Doomslug A H) (curTime : Nat) : Doomslug A H × List (Approval A H) :=
  if s.endorsementPending ∧ curTime ≥ s.timer.lastEndorsementSent + s.timer.endorsementDelay then
    if s.tip.height ≥ s.largestTargetHeight then
      ({ s with
          largestTargetHeight := s.tip.height + 1
          timer := { s.timer with lastEndorsementSent := curTime }
          endorsementPending := false },
        (s.createApproval (s.tip.height + 1)).toList)
    else
      ({ s with
          timer := { s.timer with lastEndorsementSent := curTime }
          endorsementPending := false }, [])
  else (s, [])

/-- The skip half of one iteration: if the skip delay has passed, approve `timer.height + 1`,
restart the timer one height further and report `true` (the loop goes on). -/
def timerSkip (s : Doomslug A H) (curTime : Nat) (skipDelay : Nat) :
    Doomslug A H × List (Approval A H) × Bool :=
  if curTime ≥ s.timer.started + skipDelay then
    ({ s with
        largestTargetHeight := max (s.timer.height + 1) s.largestTargetHeight
        timer := { s.timer with started := s.timer.started + skipDelay, height := s.timer.height + 1 } },
      (s.createApproval (s.timer.height + 1)).toList, true)
  else (s, [], false)

/-- The skip delay at the start of an iteration. -/
def skipDelay (s : Doomslug A H) : Nat :=
  s.timer.getDelay (s.timer.height - s.largestFinalHeight)

/-- One iteration of the `process_timer` loop. -/
def timerIter (s : Doomslug A H) (curTime : Nat) : Doomslug A H × List (Approval A H) × Bool :=
  let d := s.skipDelay
  let e := s.timerEndorse curTime
  let k := e.1.timerSkip curTime d
  (k.1, e.2 ++ k.2.1, k.2.2)

/-- The `process_timer` loop with `fuel` iterations left. -/
def processTimerLoop (curTime : Nat) : Nat → Doomslug A H → Doomslug A H × List (Approval A H)
  | 0, s => (s, [])
  | fuel + 1, s =>
    let r := s.timerIter curTime
    if r.2.2 then
      let rest := processTimerLoop curTime fuel r.1
      (rest.1, r.2.1 ++ rest.2)
    else (r.1, r.2.1)

/-- `process_timer`: at most `MAX_TIMER_ITERS` iterations; returns the approvals to send. -/
def processTimer (s : Doomslug A H) (curTime : Nat) : Doomslug A H × List (Approval A H) :=
  processTimerLoop curTime MAX_TIMER_ITERS s

/-- `set_tip`: the timer restarts at the new tip and an endorsement becomes pending. Only the
trackers of heights within the horizon of the tip are kept. -/
def setTip (s : Doomslug A H) (now : Nat) (blockHash : H) (height lastFinalHeight : Nat) :
    Doomslug A H :=
  { s with
    tip := { blockHash := blockHash, height := height }
    largestFinalHeight := lastFinalHeight
    timer := { s.timer with height := height + 1, started := now }
    approvalTracking := fun h =>
      if h > height - MAX_HEIGHTS_BEFORE_TO_STORE_APPROVALS ∧
          h ≤ height + MAX_HEIGHTS_AHEAD_TO_STORE_APPROVALS then s.approvalTracking h
      else none
    endorsementPending := true }

variable [DecidableEq H]

/-- `on_approval_message_internal`; `none` where the tracker's assertion fails. -/
def onApprovalMessageInternal (s : Doomslug A H) (now : Nat) (approval : Approval A H)
    (allPledge : List (ApprovalPledge A × Bool)) :
    Option (Doomslug A H × DoomslugBlockProductionReadiness) := do
  let atHeight := (s.approvalTracking approval.targetHeight).getD .new
  let r ← atHeight.processApproval now approval allPledge s.thresholdMode
  let s₁ := { s with
    approvalTracking := Function.update s.approvalTracking approval.targetHeight (some r.1)
    largestApprovalHeight := max approval.targetHeight s.largestApprovalHeight }
  let s₂ :=
    if r.2 ≠ .notReady then
      { s₁ with largestThresholdHeight := max approval.targetHeight s₁.largestThresholdHeight }
    else s₁
  pure (s₂, r.2)

/-- `on_approval_message`: approvals outside the horizon of the tip are ignored. -/
def onApprovalMessage (s : Doomslug A H) (now : Nat) (approval : Approval A H)
    (allPledge : List (ApprovalPledge A × Bool)) : Option (Doomslug A H) :=
  if approval.targetHeight < s.tip.height ∨
      approval.targetHeight > s.tip.height + MAX_HEIGHTS_AHEAD_TO_STORE_APPROVALS then some s
  else (s.onApprovalMessageInternal now approval allPledge).map Prod.fst

/-- `get_witness`: the approvals of the tracker of `(prevHash, parentHeight, targetHeight)`. -/
def getWitness (s : Doomslug A H) (prevHash : H) (parentHeight targetHeight : Nat) :
    AList fun _ : A => Approval A H :=
  match s.approvalTracking targetHeight with
  | none => ∅
  | some atHeight =>
    match atHeight.approvalTrackers (ApprovalInner.new prevHash parentHeight targetHeight) with
    | none => ∅
    | some t => t.witness

/-- `ready_to_produce_block`: the tracker of the tip at `targetHeight` passed the threshold, and
either the chunks are ready or a sixth of the skip delay has passed since it did. -/
def readyToProduceBlock (s : Doomslug A H) (now : Nat) (targetHeight : Nat)
    (hasEnoughChunks : Bool) : Doomslug A H × Bool :=
  let inner := ApprovalInner.new s.tip.blockHash s.tip.height targetHeight
  match s.approvalTracking targetHeight with
  | none => (s, false)
  | some atHeight =>
    match atHeight.approvalTrackers inner with
    | none => (s, false)
    | some t =>
      let r := t.getBlockProductionReadiness now
      let atHeight' : DoomslugApprovalsTrackersAtHeight A H :=
        { atHeight with approvalTrackers := Function.update atHeight.approvalTrackers inner (some r.1) }
      let s' := { s with
        approvalTracking := Function.update s.approvalTracking targetHeight (some atHeight') }
      match r.2 with
      | .notReady => (s', false)
      | .readySince when =>
        if hasEnoughChunks then (s', true)
        else (s', decide (now > when + s.skipDelay / 6))

end Doomslug

/-- `Doomslug::can_approved_block_be_produced`: the approvals of non-slashed producers carry
more than two thirds of both epochs' pledges (or a total is zero). `approvals` records which
producers signed. -/
def canApprovedBlockBeProduced (mode : DoomslugThresholdMode) (approvals : List Bool)
    (pledges : List (Nat × Nat × Bool)) : Bool :=
  if mode = .noApprovals then true
  else
    let threshold1 := (pledges.map fun p => p.1).sum * 2 / 3
    let threshold2 := (pledges.map fun p => p.2.1).sum * 2 / 3
    let approved := (approvals.zip pledges).filter fun x => !x.2.2.2
    let approvedPledge1 := (approved.map fun x => if x.1 then x.2.1 else 0).sum
    let approvedPledge2 := (approved.map fun x => if x.1 then x.2.2.1 else 0).sum
    (decide (approvedPledge1 > threshold1) || decide (threshold1 = 0)) &&
      (decide (approvedPledge2 > threshold2) || decide (threshold2 = 0))

/-! ## Runs -/

/-- A call on a `Doomslug` instance. -/
inductive DoomslugEvent (A H : Type) where
  | setTip (now : Nat) (blockHash : H) (height lastFinalHeight : Nat)
  | processTimer (curTime : Nat)
  | onApprovalMessage (now : Nat) (approval : Approval A H)
      (allPledge : List (ApprovalPledge A × Bool))

variable [DecidableEq H]

namespace Doomslug

/-- One call: the new state and the approvals it returns. A call whose assertion fails leaves
the state as it was (the node would have panicked). -/
def step (s : Doomslug A H) : DoomslugEvent A H → Doomslug A H × List (Approval A H)
  | .setTip now h height lfh => (s.setTip now h height lfh, [])
  | .processTimer t => s.processTimer t
  | .onApprovalMessage now a p => ((s.onApprovalMessage now a p).getD s, [])

/-- A run: the final state and every approval returned, in order. -/
def run (s : Doomslug A H) : List (DoomslugEvent A H) → Doomslug A H × List (Approval A H)
  | [] => (s, [])
  | e :: es =>
    let r := s.step e
    let rest := run r.1 es
    (rest.1, r.2 ++ rest.2)

end Doomslug

/-- The heights of the `set_tip` calls of a run, in order. -/
def DoomslugEvent.tipHeights : List (DoomslugEvent A H) → List Nat
  | [] => []
  | .setTip _ _ h _ :: es => h :: tipHeights es
  | _ :: es => tipHeights es

end Doomslug

end Unc
