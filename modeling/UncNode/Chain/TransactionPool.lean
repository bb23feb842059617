import Mathlib
import UncNode.Lib.SortedMap
import UncNode.Primitives.U64
import UncNode.Runtime.Verifier

/-!
# The transaction pool — `chain/pool/src/lib.rs`, `types.rs`

The pool keeps its transactions in groups, one per `key(signer_id, public_key)`, in a B-tree map,
with the set `unique_transactions` of their hashes and their total size. A pool-iterator
session takes groups out of the map one at a time, sorts each by decreasing nonce and hands out
its transactions from the back; when the session is dropped, what is left goes back.

`insert_transaction` adds the hash to `unique_transactions` before it checks the size limit, and
does not take it out again when it answers `NoSpaceLeft`: with a limit, the set can hold the hash
of a transaction the pool does not hold (`no_space_left_leaks_hash`).

* `PoolInv`: the stored hashes are distinct and in `unique_transactions` (all of it when there is
  no limit), the total is the sum of the sizes, no group is empty and each transaction is in the
  group of its key;
* `PoolInv.insertTransaction`, `PoolInv.removeTransactions`, `PoolInv.session`: every operation
  keeps it, and only the `checked_add` of an insertion can panic;
* **`session_spec`**: a session hands out the transactions of each group by non-decreasing nonce,
  what it hands out leaves the pool, and the rest is back after the drop;
* **`PoolInv.run`**: when a hash determines the signer and the public key, every run of
  operations from a pool that keeps the invariant, `TransactionPool::new` among them, keeps it,
  and the only panic on the way is the `checked_add` of an insertion.
-/

set_option autoImplicit false

namespace Unc

/-- `SignedTransaction`, as the pool reads it: the transaction and its size in bytes. The
signature is not modelled; the hash is that of the transaction. -/
structure SignedTransaction (A K : Type) where
  transaction : Transaction A K
  size : Nat

/-- `InsertTransactionResult`. -/
inductive InsertTransactionResult
  | success
  | duplicate
  | noSpaceLeft
  deriving DecidableEq, Repr

/-- `TransactionPool`, without its metrics. The map is keyed by `PoolKey`, a `CryptoHash`. -/
structure TransactionPool (A K S H : Type) [LinearOrder H] where
  transactions : SortedMap H (List (SignedTransaction A K))
  uniqueTransactions : Finset H
  keySeed : S
  lastUsedKey : H
  totalTransactionSizeLimit : Option Nat
  totalTransactionSize : Nat

/-- `TransactionGroup`: a group taken out of the pool by a session. -/
structure TransactionGroup (A K H : Type) where
  key : H
  transactions : List (SignedTransaction A K)
  removedTransactionHashes : List H
  removedTransactionSize : Nat

/-- `PoolIteratorWrapper`: the pool, and the queue `sorted_groups` of the groups taken out. -/
structure PoolIteratorWrapper (A K S H : Type) [LinearOrder H] where
  pool : TransactionPool A K S H
  sortedGroups : List (TransactionGroup A K H)

/-- A step of a pool-iterator session: `PoolIterator::next`, or `TransactionGroup::next` on the
group it returned. -/
inductive SessionStep
  | next
  | groupNext
  deriving DecidableEq, Repr

/-- An operation on the pool: an insertion, a removal, or a whole session up to its drop. -/
inductive PoolOp (A K : Type)
  | insertTransaction (tx : SignedTransaction A K)
  | removeTransactions (txs : List (SignedTransaction A K))
  | session (steps : List SessionStep)

section Model

variable {A K S H : Type} [LinearOrder H]
variable (hashTx : Transaction A K → H) (keyHash : K → S → A → H)

/-- `SignedTransaction::get_hash`: the hash of the transaction. -/
def SignedTransaction.getHash (tx : SignedTransaction A K) : H := hashTx tx.transaction

/-- `TransactionPool::new`. -/
def TransactionPool.new [Inhabited H] (keySeed : S) (totalTransactionSizeLimit : Option Nat) :
    TransactionPool A K S H where
  transactions := SortedMap.empty
  uniqueTransactions := ∅
  keySeed := keySeed
  lastUsedKey := default
  totalTransactionSizeLimit := totalTransactionSizeLimit
  totalTransactionSize := 0

/-- `TransactionPool::key`: the hash of the public key, the seed and the account id. -/
def TransactionPool.key (pool : TransactionPool A K S H) (accountId : A) (publicKey : K) : H :=
  keyHash publicKey pool.keySeed accountId

/-- The key of a transaction's group. -/
def TransactionPool.keyOf (pool : TransactionPool A K S H) (tx : SignedTransaction A K) : H :=
  pool.key keyHash tx.transaction.signerId tx.transaction.publicKey

/-- `transactions.entry(key).or_insert_with(Vec::new).push(tx)`. -/
def pushTransaction (m : SortedMap H (List (SignedTransaction A K))) (key : H)
    (tx : SignedTransaction A K) : SortedMap H (List (SignedTransaction A K)) :=
  m.insert key ((m.get key).getD [] ++ [tx])

/-- Whether `new_total_transaction_size` is over `total_transaction_size_limit`. -/
def overLimit : Option Nat → Nat → Bool
  | some limit, newTotal => decide (limit < newTotal)
  | none, _ => false

/-- `TransactionPool::insert_transaction`; `none` when the total size overflows `u64`. -/
def TransactionPool.insertTransaction (pool : TransactionPool A K S H)
    (signedTransaction : SignedTransaction A K) :
    Option (TransactionPool A K S H × InsertTransactionResult) :=
  if signedTransaction.getHash hashTx ∈ pool.uniqueTransactions then some (pool, .duplicate)
  else
    -- `unique_transactions.insert` has added the hash, whatever the answer is
    let pool := { pool with
      uniqueTransactions := insert (signedTransaction.getHash hashTx) pool.uniqueTransactions }
    (addU64 pool.totalTransactionSize signedTransaction.size).map fun newTotal =>
      if overLimit pool.totalTransactionSizeLimit newTotal then (pool, .noSpaceLeft)
      else
        ({ pool with
            totalTransactionSize := newTotal
            transactions := pushTransaction pool.transactions
              (pool.keyOf keyHash signedTransaction) signedTransaction },
          .success)

/-- `grouped_transactions.entry(key).or_insert_with(HashSet::new).insert(hash)`; the map's
entries are kept in the order of their first insertion. -/
def addToGroup (key hash : H) : List (H × Finset H) → List (H × Finset H)
  | [] => [(key, {hash})]
  | e :: rest => if e.1 = key then (e.1, insert hash e.2) :: rest else e :: addToGroup key hash rest

/-- The first loop of `remove_transactions`: a hash still in `unique_transactions` leaves it and
is grouped under the key of its transaction. -/
def collectRemoved (pool : TransactionPool A K S H) (st : Finset H × List (H × Finset H))
    (tx : SignedTransaction A K) : Finset H × List (H × Finset H) :=
  if tx.getHash hashTx ∈ st.1 then
    (st.1.erase (tx.getHash hashTx), addToGroup (pool.keyOf keyHash tx) (tx.getHash hashTx) st.2)
  else st

/-- `Vec::retain` in `remove_transactions`: a transaction whose hash is in `hashes` goes, and its
size is taken off the total by `checked_sub`, which panics below zero. -/
def retainGroup (hashes : Finset H) :
    Nat → List (SignedTransaction A K) → Option (Nat × List (SignedTransaction A K))
  | total, [] => some (total, [])
  | total, tx :: rest =>
    if tx.getHash hashTx ∈ hashes then
      (subU64 total tx.size).bind fun total => retainGroup hashes total rest
    else (retainGroup hashes total rest).map fun r => (r.1, tx :: r.2)

/-- One key of the second loop of `remove_transactions`: `retain` on its entry, if the pool has
one, and the entry removed when it is left empty. -/
def removeGroup (pool : TransactionPool A K S H) (group : H × Finset H) :
    Option (TransactionPool A K S H) :=
  match pool.transactions.get group.1 with
  | none => some pool
  | some txs =>
    (retainGroup hashTx group.2 pool.totalTransactionSize txs).map fun r =>
      { pool with
        totalTransactionSize := r.1
        transactions :=
          if r.2.isEmpty then pool.transactions.erase group.1
          else pool.transactions.insert group.1 r.2 }

/-- `TransactionPool::remove_transactions`. -/
def TransactionPool.removeTransactions (pool : TransactionPool A K S H)
    (transactions : List (SignedTransaction A K)) : Option (TransactionPool A K S H) :=
  let grouped := transactions.foldl (collectRemoved hashTx keyHash pool)
    (pool.uniqueTransactions, [])
  grouped.2.foldlM (removeGroup hashTx) { pool with uniqueTransactions := grouped.1 }

/-- `sort_by_key(|st| Reverse(st.transaction.nonce))`: by decreasing nonce, stably. -/
def sortByReverseNonce (txs : List (SignedTransaction A K)) : List (SignedTransaction A K) :=
  txs.mergeSort fun a b => decide (b.transaction.nonce ≤ a.transaction.nonce)

/-- `TransactionGroup::next`: the last transaction, which has the smallest nonce, is popped and
recorded; `+=` on the `u64` size panics on overflow. -/
def TransactionGroup.next (g : TransactionGroup A K H) :
    Option (Option (SignedTransaction A K) × TransactionGroup A K H) :=
  match g.transactions.getLast? with
  | none => some (none, g)
  | some tx =>
    (addU64 g.removedTransactionSize tx.size).map fun size =>
      (some tx, { g with
        transactions := g.transactions.dropLast
        removedTransactionHashes := g.removedTransactionHashes ++ [tx.getHash hashTx]
        removedTransactionSize := size })

/-- `for hash in hashes { unique_transactions.remove(&hash) }`. -/
def removeHashes (unique : Finset H) (hashes : List H) : Finset H :=
  hashes.foldl (fun u h => u.erase h) unique

/-- What both `next` and `drop` do with a group they are done with: its handed-out hashes leave
`unique_transactions` and its handed-out size leaves the total, by `checked_sub`. -/
def retireGroup (pool : TransactionPool A K S H) (g : TransactionGroup A K H) :
    Option (TransactionPool A K S H) :=
  (subU64 pool.totalTransactionSize g.removedTransactionSize).map fun total =>
    { pool with
      uniqueTransactions := removeHashes pool.uniqueTransactions g.removedTransactionHashes
      totalTransactionSize := total }

/-- `TransactionPool::pool_iterator`. -/
def TransactionPool.poolIterator (pool : TransactionPool A K S H) : PoolIteratorWrapper A K S H :=
  ⟨pool, []⟩

/-- The key `next` takes a group from: the first key after `last_used_key`, or else the first. -/
def TransactionPool.nextKey (pool : TransactionPool A K S H) : Option H :=
  match pool.transactions.entries.find? fun e => decide (pool.lastUsedKey < e.1) with
  | some e => some e.1
  | none => pool.transactions.entries.head?.map Prod.fst

/-- The loop of `next` over an empty pool: empty groups at the front of the queue are retired,
and the first non-empty one goes to the back and is returned. -/
def discardEmptyGroups (pool : TransactionPool A K S H) :
    List (TransactionGroup A K H) → Option (PoolIteratorWrapper A K S H × Bool)
  | [] => some (⟨pool, []⟩, false)
  | g :: rest =>
    if g.transactions.isEmpty then
      (retireGroup pool g).bind fun pool => discardEmptyGroups pool rest
    else some (⟨pool, rest ++ [g]⟩, true)

/-- `PoolIteratorWrapper::next`; `true` when it returns a group, which is then the back of the
queue. The two `expect`s, on a map just checked to be non-empty, are the `none`s. -/
def PoolIteratorWrapper.next (w : PoolIteratorWrapper A K S H) :
    Option (PoolIteratorWrapper A K S H × Bool) :=
  if w.pool.transactions.entries.isEmpty then discardEmptyGroups w.pool w.sortedGroups
  else do
    let key ← w.pool.nextKey
    let transactions ← w.pool.transactions.get key
    pure (⟨{ w.pool with lastUsedKey := key, transactions := w.pool.transactions.erase key },
      w.sortedGroups ++ [⟨key, sortByReverseNonce transactions, [], 0⟩]⟩, true)

/-- `TransactionGroup::next` on the group the last `next` returned, the back of the queue. When
there is none, the caller holds no group and nothing happens. -/
def PoolIteratorWrapper.groupNext (w : PoolIteratorWrapper A K S H) :
    Option (PoolIteratorWrapper A K S H × Option (SignedTransaction A K)) :=
  match w.sortedGroups.getLast? with
  | none => some (w, none)
  | some g =>
    (g.next hashTx).map fun r => (⟨w.pool, w.sortedGroups.dropLast ++ [r.2]⟩, r.1)

/-- One group of `Drop for PoolIteratorWrapper`: retired, and put back when not empty. -/
def dropGroup (pool : TransactionPool A K S H) (g : TransactionGroup A K H) :
    Option (TransactionPool A K S H) :=
  (retireGroup pool g).map fun pool =>
    if g.transactions.isEmpty then pool
    else { pool with transactions := pool.transactions.insert g.key g.transactions }

/-- `Drop for PoolIteratorWrapper`. -/
def PoolIteratorWrapper.drop (w : PoolIteratorWrapper A K S H) : Option (TransactionPool A K S H) :=
  w.sortedGroups.foldlM dropGroup w.pool

/-- The steps of a session, with the transactions handed out in order. -/
def runSession : PoolIteratorWrapper A K S H → List SessionStep →
    Option (PoolIteratorWrapper A K S H × List (SignedTransaction A K))
  | w, [] => some (w, [])
  | w, .next :: steps => w.next.bind fun r => runSession r.1 steps
  | w, .groupNext :: steps =>
    (w.groupNext hashTx).bind fun r =>
      (runSession r.1 steps).map fun s => (s.1, r.2.toList ++ s.2)

/-- A session: `pool_iterator`, its steps, then the drop. -/
def TransactionPool.session (pool : TransactionPool A K S H) (steps : List SessionStep) :
    Option (TransactionPool A K S H × List (SignedTransaction A K)) :=
  (runSession hashTx pool.poolIterator steps).bind fun r => r.1.drop.map fun p => (p, r.2)

/-- One operation on the pool. -/
def TransactionPool.step (pool : TransactionPool A K S H) :
    PoolOp A K → Option (TransactionPool A K S H)
  | .insertTransaction tx => (pool.insertTransaction hashTx keyHash tx).map Prod.fst
  | .removeTransactions txs => pool.removeTransactions hashTx keyHash txs
  | .session steps => (pool.session hashTx steps).map Prod.fst

/-- A sequence of operations; `none` when one of them panics. -/
def TransactionPool.run (pool : TransactionPool A K S H) :
    List (PoolOp A K) → Option (TransactionPool A K S H)
  | [] => some pool
  | op :: ops => (pool.step hashTx keyHash op).bind fun p => p.run ops

end Model

/-! ## The pool invariant -/

/-- The transactions in the groups of the pool's map. -/
def TransactionPool.stored {A K S H : Type} [LinearOrder H] (pool : TransactionPool A K S H) :
    List (SignedTransaction A K) :=
  pool.transactions.entries.flatMap Prod.snd

section Pool

variable {A K S H : Type} [LinearOrder H]
variable {hashTx : Transaction A K → H} {keyHash : K → S → A → H}
variable {pool pool' : TransactionPool A K S H}

@[simp] theorem TransactionPool.stored_mk (t : SortedMap H (List (SignedTransaction A K)))
    (u : Finset H) (seed : S) (last : H) (limit : Option Nat) (total : Nat) :
    (TransactionPool.mk t u seed last limit total).stored = t.entries.flatMap Prod.snd :=
  rfl

variable (keyHash) in
/-- The groups of the map: none is empty, and each holds transactions of its own key. -/
structure GroupsKeyed (pool : TransactionPool A K S H) : Prop where
  nonempty : ∀ e ∈ pool.transactions.entries, e.2 ≠ []
  keyed : ∀ e ∈ pool.transactions.entries, ∀ tx ∈ e.2, pool.keyOf keyHash tx = e.1

variable (hashTx keyHash) in
/-- What holds of the pool between operations. Without a size limit, `unique_transactions` is
exactly the set of the stored hashes. -/
structure PoolInv (pool : TransactionPool A K S H) : Prop extends GroupsKeyed keyHash pool where
  nodup : (pool.stored.map (·.getHash hashTx)).Nodup
  mem_unique : ∀ tx ∈ pool.stored, tx.getHash hashTx ∈ pool.uniqueTransactions
  unique_stored : pool.totalTransactionSizeLimit = none →
    ∀ h ∈ pool.uniqueTransactions, ∃ tx ∈ pool.stored, tx.getHash hashTx = h
  size_eq : pool.totalTransactionSize = (pool.stored.map (·.size)).sum
  size_lt : pool.totalTransactionSize < 2 ^ 64

theorem poolInv_new [Inhabited H] (keySeed : S) (limit : Option Nat) :
    PoolInv hashTx keyHash (TransactionPool.new keySeed limit : TransactionPool A K S H) where
  nodup := List.nodup_nil
  mem_unique := by simp [TransactionPool.new, TransactionPool.stored, SortedMap.empty]
  unique_stored := by simp [TransactionPool.new]
  size_eq := rfl
  size_lt := by simp [TransactionPool.new]
  nonempty := by simp [TransactionPool.new, SortedMap.empty]
  keyed := by simp [TransactionPool.new, SortedMap.empty]

theorem stored_pushTransaction (m : SortedMap H (List (SignedTransaction A K))) (k : H)
    (tx : SignedTransaction A K) :
    ((pushTransaction m k tx).entries.flatMap Prod.snd).Perm (m.entries.flatMap Prod.snd ++ [tx]) := by
  refine (SortedMap.perm_flatMap_insert Prod.snd).trans ?_
  cases hk : m.get k with
  | none =>
    rw [SortedMap.erase_eq_self hk]
    exact List.perm_append_comm
  | some old =>
    have hsplit := SortedMap.perm_flatMap_of_get Prod.snd hk
    have hmove : (old ++ [tx] ++ (m.erase k).entries.flatMap Prod.snd).Perm
        (old ++ (m.erase k).entries.flatMap Prod.snd ++ [tx]) := by
      rw [List.append_assoc, List.append_assoc]
      exact List.perm_append_comm.append_left old
    simpa using hmove.trans (hsplit.symm.append_right [tx])

/-- The entries of `push` are those of the map, the pushed key's holding one more transaction. -/
theorem mem_pushTransaction {m : SortedMap H (List (SignedTransaction A K))} {k : H}
    {tx : SignedTransaction A K} {e : H × List (SignedTransaction A K)}
    (he : e ∈ (pushTransaction m k tx).entries) :
    e = (k, (m.get k).getD [] ++ [tx]) ∨ (e ∈ m.entries ∧ e.1 ≠ k) := by
  rcases List.mem_cons.mp (SortedMap.perm_insert.mem_iff.mp he) with h | h
  · exact .inl h
  · exact .inr (SortedMap.mem_erase.mp h)

/-- **Inversion of `insert_transaction`**: a duplicate leaves the pool as it is; otherwise the
hash joins `unique_transactions`, and the transaction joins its group unless it is over the
limit; `none` is the overflow of the total size. -/
theorem insertTransaction_eq_some {tx : SignedTransaction A K} {r : InsertTransactionResult}
    (h : pool.insertTransaction hashTx keyHash tx = some (pool', r)) :
    (tx.getHash hashTx ∈ pool.uniqueTransactions ∧ pool' = pool ∧ r = .duplicate) ∨
    (tx.getHash hashTx ∉ pool.uniqueTransactions ∧
      pool.totalTransactionSize + tx.size < 2 ^ 64 ∧
      overLimit pool.totalTransactionSizeLimit (pool.totalTransactionSize + tx.size) = true ∧
      pool' = { pool with
        uniqueTransactions := insert (tx.getHash hashTx) pool.uniqueTransactions } ∧
      r = .noSpaceLeft) ∨
    (tx.getHash hashTx ∉ pool.uniqueTransactions ∧
      pool.totalTransactionSize + tx.size < 2 ^ 64 ∧
      overLimit pool.totalTransactionSizeLimit (pool.totalTransactionSize + tx.size) = false ∧
      pool' = { pool with
        uniqueTransactions := insert (tx.getHash hashTx) pool.uniqueTransactions
        totalTransactionSize := pool.totalTransactionSize + tx.size
        transactions := pushTransaction pool.transactions (pool.keyOf keyHash tx) tx } ∧
      r = .success) := by
  unfold TransactionPool.insertTransaction at h
  split_ifs at h with hdup
  · simp only [Option.some.injEq, Prod.mk.injEq] at h
    exact .inl ⟨hdup, h.1.symm, h.2.symm⟩
  · obtain ⟨total, hadd, hres⟩ := Option.map_eq_some_iff.mp h
    obtain ⟨hlt, rfl⟩ := addU64_eq_some.mp hadd
    by_cases hover : overLimit pool.totalTransactionSizeLimit (pool.totalTransactionSize + tx.size)
    · rw [if_pos hover] at hres
      simp only [Prod.mk.injEq] at hres
      exact .inr (.inl ⟨hdup, hlt, hover, hres.1.symm, hres.2.symm⟩)
    · rw [if_neg hover] at hres
      simp only [Prod.mk.injEq] at hres
      exact .inr (.inr ⟨hdup, hlt, by simpa using hover, hres.1.symm, hres.2.symm⟩)

theorem insertTransaction_eq_none {tx : SignedTransaction A K} :
    pool.insertTransaction hashTx keyHash tx = none ↔
      tx.getHash hashTx ∉ pool.uniqueTransactions ∧ 2 ^ 64 ≤ pool.totalTransactionSize + tx.size := by
  unfold TransactionPool.insertTransaction
  split_ifs with hdup
  · simp [hdup]
  · simp only [Option.map_eq_none_iff, addU64_eq_none]
    exact ⟨fun h => ⟨hdup, h⟩, And.right⟩

/-- **`insert_transaction` keeps the invariant**, and a successful insertion adds the
transaction to what is stored; any other answer stores nothing new. -/
theorem PoolInv.insertTransaction (hinv : PoolInv hashTx keyHash pool)
    {tx : SignedTransaction A K} {r : InsertTransactionResult}
    (h : pool.insertTransaction hashTx keyHash tx = some (pool', r)) :
    PoolInv hashTx keyHash pool' ∧
      pool'.stored.Perm (if r = .success then pool.stored ++ [tx] else pool.stored) := by
  rcases insertTransaction_eq_some h with ⟨-, rfl, rfl⟩ | ⟨hdup, -, hover, rfl, rfl⟩ |
    ⟨hdup, hlt, hover, rfl, rfl⟩
  · exact ⟨hinv, by simp⟩
  · -- rejected: only the hash is added, which a pool without a limit never does
    refine ⟨⟨⟨hinv.nonempty, hinv.keyed⟩, hinv.nodup,
      fun t ht => Finset.mem_insert_of_mem (hinv.mem_unique t ht), fun hnone => ?_, hinv.size_eq,
      hinv.size_lt⟩, by simp [TransactionPool.stored]⟩
    have hnone : pool.totalTransactionSizeLimit = none := hnone
    simp [hnone, overLimit] at hover
  · have hperm := stored_pushTransaction pool.transactions (pool.keyOf keyHash tx) tx
    refine ⟨⟨⟨fun e he => ?_, fun e he t ht => ?_⟩, ?_, fun t ht => ?_, fun hnone h' hh => ?_, ?_,
      hlt⟩, by rw [if_pos rfl]; exact hperm⟩
    all_goals simp only [TransactionPool.stored_mk] at *
    · rcases mem_pushTransaction he with rfl | ⟨he, -⟩
      · simp
      · exact hinv.nonempty e he
    · rcases mem_pushTransaction he with rfl | ⟨he, -⟩
      · rcases List.mem_append.mp ht with ht | ht
        · cases hk : pool.transactions.get (pool.keyOf keyHash tx) with
          | none => simp [hk] at ht
          | some old =>
            rw [hk, Option.getD_some] at ht
            exact hinv.keyed _ (SortedMap.mem_of_get_eq_some hk) t ht
        · rw [List.mem_singleton.mp ht]
          rfl
      · exact hinv.keyed e he t ht
    · rw [(hperm.map _).nodup_iff, List.map_append, List.map_singleton, List.nodup_append]
      refine ⟨hinv.nodup, List.nodup_singleton _, fun a ha b hb => ?_⟩
      rw [List.mem_singleton] at hb
      subst hb
      obtain ⟨t, ht, rfl⟩ := List.mem_map.mp ha
      exact fun heq => hdup (heq ▸ hinv.mem_unique t ht)
    · rcases List.mem_append.mp (hperm.mem_iff.mp ht) with ht | ht
      · exact Finset.mem_insert_of_mem (hinv.mem_unique t ht)
      · rw [List.mem_singleton.mp ht]
        exact Finset.mem_insert_self _ _
    · rcases Finset.mem_insert.mp hh with rfl | hh
      · exact ⟨tx, hperm.mem_iff.mpr (by simp), rfl⟩
      · obtain ⟨t, ht, rfl⟩ := hinv.unique_stored hnone h' hh
        exact ⟨t, hperm.mem_iff.mpr (List.mem_append_left _ ht), rfl⟩
    · rw [(hperm.map _).sum_nat, List.map_append, List.sum_append, hinv.size_eq]
      simp [TransactionPool.stored]

/-- With a size limit, a transaction refused with `NoSpaceLeft` leaves its hash in
`unique_transactions`, which then holds a hash no stored transaction has; once the pool is empty
again, the transaction is refused as a `Duplicate`. -/
theorem no_space_left_leaks_hash :
    ∃ p₁ p₂ p₃ : TransactionPool ℕ ℕ ℕ ℕ,
      (TransactionPool.new 0 (some 1)).insertTransaction (·.nonce) (fun _ _ a => a)
        ⟨⟨0, 0, 1, 0, []⟩, 1⟩ = some (p₁, .success) ∧
      p₁.insertTransaction (·.nonce) (fun _ _ a => a)
        ⟨⟨1, 0, 2, 0, []⟩, 1⟩ = some (p₂, .noSpaceLeft) ∧
      p₂.stored.map (·.transaction.nonce) = [1] ∧ 2 ∈ p₂.uniqueTransactions ∧
      p₂.removeTransactions (·.nonce) (fun _ _ a => a) [⟨⟨0, 0, 1, 0, []⟩, 1⟩] = some p₃ ∧
      p₃.stored = [] ∧
      p₃.insertTransaction (·.nonce) (fun _ _ a => a)
        ⟨⟨1, 0, 2, 0, []⟩, 1⟩ = some (p₃, .duplicate) := by
  refine ⟨_, _, _, rfl, rfl, ?_, ?_, rfl, ?_, ?_⟩
  · decide
  · decide
  · decide
  · rfl

/-! ## `remove_transactions` -/

theorem keyOf_congr {p q : TransactionPool A K S H} (h : p.keySeed = q.keySeed)
    (tx : SignedTransaction A K) : p.keyOf keyHash tx = q.keyOf keyHash tx := by
  simp [TransactionPool.keyOf, TransactionPool.key, h]

theorem GroupsKeyed.exists_entry (hg : GroupsKeyed keyHash pool) {tx : SignedTransaction A K}
    (htx : tx ∈ pool.stored) :
    ∃ e ∈ pool.transactions.entries, tx ∈ e.2 ∧ pool.keyOf keyHash tx = e.1 := by
  obtain ⟨e, he, htx⟩ := List.mem_flatMap.mp htx
  exact ⟨e, he, htx, hg.keyed e he tx htx⟩

theorem GroupsKeyed.erase (hg : GroupsKeyed keyHash pool) {k : H}
    (hseed : pool'.keySeed = pool.keySeed) (ht : pool'.transactions = pool.transactions.erase k) :
    GroupsKeyed keyHash pool' where
  nonempty e he := by
    rw [ht] at he
    exact hg.nonempty e (SortedMap.mem_erase.mp he).1
  keyed e he tx htx := by
    rw [ht] at he
    rw [keyOf_congr hseed]
    exact hg.keyed e (SortedMap.mem_erase.mp he).1 tx htx

theorem GroupsKeyed.insert (hg : GroupsKeyed keyHash pool) {k : H}
    {v : List (SignedTransaction A K)} (hseed : pool'.keySeed = pool.keySeed)
    (ht : pool'.transactions = pool.transactions.insert k v) (hne : v ≠ [])
    (hv : ∀ tx ∈ v, pool.keyOf keyHash tx = k) : GroupsKeyed keyHash pool' where
  nonempty e he := by
    rw [ht] at he
    rcases List.mem_cons.mp (SortedMap.perm_insert.mem_iff.mp he) with rfl | he
    · exact hne
    · exact hg.nonempty e (SortedMap.mem_erase.mp he).1
  keyed e he tx htx := by
    rw [ht] at he
    rw [keyOf_congr hseed]
    rcases List.mem_cons.mp (SortedMap.perm_insert.mem_iff.mp he) with rfl | he
    · exact hv tx htx
    · exact hg.keyed e (SortedMap.mem_erase.mp he).1 tx htx

theorem sum_map_filter_add (p : SignedTransaction A K → Bool) (txs : List (SignedTransaction A K)) :
    ((txs.filter p).map (·.size)).sum + ((txs.filter fun tx => !p tx).map (·.size)).sum =
      (txs.map (·.size)).sum := by
  rw [← List.sum_append, ← List.map_append]
  exact ((List.filter_append_perm p txs).map _).sum_nat

/-- `retain` with enough total left: the hashes in `hashes` go, and so does their size. -/
theorem retainGroup_eq (hashes : Finset H) :
    ∀ (total : Nat) (txs : List (SignedTransaction A K)),
      ((txs.filter (·.getHash hashTx ∈ hashes)).map (·.size)).sum ≤ total →
      retainGroup hashTx hashes total txs =
        some (total - ((txs.filter (·.getHash hashTx ∈ hashes)).map (·.size)).sum,
          txs.filter fun tx => !decide (tx.getHash hashTx ∈ hashes))
  | _, [], _ => by simp [retainGroup]
  | total, tx :: rest, h => by
    by_cases hmem : tx.getHash hashTx ∈ hashes
    · have hle : tx.size + ((rest.filter (·.getHash hashTx ∈ hashes)).map (·.size)).sum ≤ total := by
        simpa [List.filter_cons, hmem] using h
      rw [retainGroup, if_pos hmem, subU64, if_pos (by omega), Option.bind_some,
        retainGroup_eq hashes _ rest (by omega)]
      simp only [List.filter_cons, hmem, decide_true, if_true, Bool.not_true, Bool.false_eq_true,
        if_false, List.map_cons, List.sum_cons]
      congr 2
      omega
    · have hle : ((rest.filter (·.getHash hashTx ∈ hashes)).map (·.size)).sum ≤ total := by
        simpa [List.filter_cons, hmem] using h
      rw [retainGroup, if_neg hmem, retainGroup_eq hashes _ rest hle]
      simp [hmem]

/-- Whether the transaction with hash `h` and key `k` is among the grouped hashes. -/
def inGroups (groups : List (H × Finset H)) (k h : H) : Bool :=
  groups.any fun g => decide (g.1 = k ∧ h ∈ g.2)

/-- **One key of the second loop**: of the transactions of key `g.1`, those whose hash is in
`g.2` go, with their size; only the map and the total change. -/
theorem removeGroup_spec (hg : GroupsKeyed keyHash pool)
    (hsize : pool.totalTransactionSize = (pool.stored.map (·.size)).sum) (g : H × Finset H) :
    ∃ p', removeGroup hashTx pool g = some p' ∧
      p' = { pool with
        transactions := p'.transactions
        totalTransactionSize := p'.totalTransactionSize } ∧
      p'.stored.Perm
        (pool.stored.filter fun s => !inGroups [g] (pool.keyOf keyHash s) (s.getHash hashTx)) ∧
      p'.totalTransactionSize = (p'.stored.map (·.size)).sum ∧ GroupsKeyed keyHash p' := by
  obtain ⟨k, hs⟩ := g
  simp only [inGroups, List.any_cons, List.any_nil, Bool.or_false]
  cases hk : pool.transactions.get k with
  | none =>
    -- no group of `k`: nothing stored has that key
    refine ⟨pool, by simp [removeGroup, hk], rfl, ?_, hsize, hg⟩
    rw [List.filter_eq_self.mpr]
    intro s hs'
    obtain ⟨e, he, -, hkey⟩ := hg.exists_entry hs'
    have hne : e.1 ≠ k := fun h => by
      have := List.lookup_eq_none_iff.mp hk e he
      simp [h] at this
    simp [hkey, Ne.symm hne]
  | some txs =>
    have hsplit := SortedMap.perm_flatMap_of_get Prod.snd hk
    dsimp only at hsplit
    have htxs : ∀ s ∈ txs, pool.keyOf keyHash s = k :=
      hg.keyed _ (SortedMap.mem_of_get_eq_some hk)
    have hrest : ∀ s ∈ (pool.transactions.erase k).entries.flatMap Prod.snd,
        pool.keyOf keyHash s ≠ k := by
      intro s hs'
      obtain ⟨e, he, hse⟩ := List.mem_flatMap.mp hs'
      obtain ⟨he, hek⟩ := SortedMap.mem_erase.mp he
      rw [hg.keyed e he s hse]
      exact hek
    have hfilter : (pool.stored.filter fun s =>
        !decide (k = pool.keyOf keyHash s ∧ s.getHash hashTx ∈ hs)).Perm
        (txs.filter (fun tx => !decide (tx.getHash hashTx ∈ hs)) ++
          (pool.transactions.erase k).entries.flatMap Prod.snd) := by
      refine (hsplit.filter _).trans (List.Perm.of_eq ?_)
      rw [List.filter_append]
      congr 1
      · exact List.filter_congr fun s hs' => by simp [htxs s hs']
      · exact List.filter_eq_self.mpr fun s hs' => by simp [Ne.symm (hrest s hs')]
    have hsum := sum_map_filter_add (·.getHash hashTx ∈ hs) txs
    have htotal : pool.totalTransactionSize =
        ((txs.filter (·.getHash hashTx ∈ hs)).map (·.size)).sum +
          ((txs.filter fun tx => !decide (tx.getHash hashTx ∈ hs)).map (·.size)).sum +
          (((pool.transactions.erase k).entries.flatMap Prod.snd).map (·.size)).sum := by
      rw [hsize, TransactionPool.stored, (hsplit.map _).sum_nat, List.map_append, List.sum_append,
        ← hsum]
    have hkept : ∀ tx ∈ txs.filter (fun tx => !decide (tx.getHash hashTx ∈ hs)),
        pool.keyOf keyHash tx = k := fun tx htx => htxs tx (List.mem_of_mem_filter htx)
    refine ⟨_, by simp only [removeGroup, hk]; rw [retainGroup_eq hs _ txs (by omega)]; rfl, rfl,
      ?_, ?_, ?_⟩
    · by_cases hemp : (txs.filter fun tx => !decide (tx.getHash hashTx ∈ hs)).isEmpty
      · rw [List.isEmpty_iff.mp hemp, List.nil_append] at hfilter
        simp only [hemp, if_true, TransactionPool.stored_mk]
        exact hfilter.symm
      · simp only [hemp, Bool.false_eq_true, if_false, TransactionPool.stored_mk]
        exact (SortedMap.perm_flatMap_insert Prod.snd).trans hfilter.symm
    · by_cases hemp : (txs.filter fun tx => !decide (tx.getHash hashTx ∈ hs)).isEmpty
      · simp only [hemp, if_true, TransactionPool.stored_mk]
        simp only [List.isEmpty_iff.mp hemp, List.map_nil, List.sum_nil] at htotal
        omega
      · simp only [hemp, Bool.false_eq_true, if_false, TransactionPool.stored_mk]
        rw [((SortedMap.perm_flatMap_insert Prod.snd).map _).sum_nat, List.map_append,
          List.sum_append]
        dsimp only
        omega
    · by_cases hemp : (txs.filter fun tx => !decide (tx.getHash hashTx ∈ hs)).isEmpty
      · exact hg.erase (k := k) rfl (by simp [hemp])
      · exact hg.insert rfl (by simp [hemp]) (by simpa using hemp) hkept

theorem inGroups_cons (g : H × Finset H) (G : List (H × Finset H)) (k h : H) :
    inGroups (g :: G) k h = (decide (g.1 = k ∧ h ∈ g.2) || inGroups G k h) :=
  List.any_cons

variable (hashTx) in
/-- **The second loop of `remove_transactions`**, whatever the order of the groups: a stored
transaction goes when its hash is grouped under its key, and its size goes with it. -/
theorem removeGroups_spec : ∀ (G : List (H × Finset H)) (pool : TransactionPool A K S H),
    GroupsKeyed keyHash pool → pool.totalTransactionSize = (pool.stored.map (·.size)).sum →
    ∃ p', G.foldlM (removeGroup hashTx) pool = some p' ∧
      p'.uniqueTransactions = pool.uniqueTransactions ∧ p'.keySeed = pool.keySeed ∧
      p'.totalTransactionSizeLimit = pool.totalTransactionSizeLimit ∧
      p'.stored.Perm
        (pool.stored.filter fun s => !inGroups G (pool.keyOf keyHash s) (s.getHash hashTx)) ∧
      p'.totalTransactionSize = (p'.stored.map (·.size)).sum ∧ GroupsKeyed keyHash p'
  | [], pool, hg, hsize => ⟨pool, rfl, rfl, rfl, rfl, by simp [inGroups], hsize, hg⟩
  | g :: G, pool, hg, hsize => by
    obtain ⟨p₁, h₁, hframe, hperm₁, hsize₁, hg₁⟩ := removeGroup_spec hg hsize g
    obtain ⟨p', h', hu, hseed, hlim, hperm', hsize', hg'⟩ := removeGroups_spec G p₁ hg₁ hsize₁
    have hseed₁ : p₁.keySeed = pool.keySeed := congrArg (·.keySeed) hframe
    refine ⟨p', by rw [List.foldlM_cons, h₁]; exact h',
      hu.trans (congrArg (·.uniqueTransactions) hframe), hseed.trans hseed₁,
      hlim.trans (congrArg (·.totalTransactionSizeLimit) hframe), ?_, hsize', hg'⟩
    -- the filter of the rest of the groups after the filter of `g`
    refine hperm'.trans ((hperm₁.filter _).trans (List.Perm.of_eq ?_))
    rw [List.filter_filter]
    refine List.filter_congr fun s _ => ?_
    rw [keyOf_congr hseed₁, inGroups_cons]
    simp [inGroups, Bool.and_comm]

theorem inGroups_addToGroup (key hash : H) (G : List (H × Finset H)) (k h : H) :
    inGroups (addToGroup key hash G) k h = (decide (key = k ∧ h = hash) || inGroups G k h) := by
  induction G with
  | nil => simp [addToGroup, inGroups]
  | cons e G ih =>
    by_cases he : e.1 = key
    · rw [addToGroup, if_pos he, inGroups_cons, inGroups_cons, he]
      refine Bool.eq_iff_iff.mpr ?_
      simp only [Finset.mem_insert, Bool.or_eq_true, decide_eq_true_eq]
      tauto
    · rw [addToGroup, if_neg he, inGroups_cons, inGroups_cons, ih]
      refine Bool.eq_iff_iff.mpr ?_
      simp only [Bool.or_eq_true]
      tauto

section Collect

variable (pool : TransactionPool A K S H)

/-- The first loop takes out of `unique_transactions` exactly the hashes of the given
transactions. -/
theorem mem_collectRemoved_fst : ∀ (txs : List (SignedTransaction A K))
    (st : Finset H × List (H × Finset H)) (h : H),
    h ∈ (txs.foldl (collectRemoved hashTx keyHash pool) st).1 ↔
      h ∈ st.1 ∧ h ∉ txs.map (·.getHash hashTx)
  | [], st, h => by simp
  | t :: txs, st, h => by
    rw [List.foldl_cons, mem_collectRemoved_fst txs, collectRemoved]
    split_ifs with ht
    · simp only [Finset.mem_erase, List.map_cons, List.mem_cons]
      tauto
    · simp only [List.map_cons, List.mem_cons]
      constructor
      · rintro ⟨hst, hnot⟩
        exact ⟨hst, fun h' => h'.elim (fun heq => ht (heq ▸ hst)) hnot⟩
      · rintro ⟨hst, hnot⟩
        exact ⟨hst, fun h' => hnot (.inr h')⟩

theorem collectRemoved_snd_mono : ∀ (txs : List (SignedTransaction A K))
    (st : Finset H × List (H × Finset H)) (k h : H), inGroups st.2 k h = true →
    inGroups (txs.foldl (collectRemoved hashTx keyHash pool) st).2 k h = true
  | [], _, _, _, hin => hin
  | t :: txs, st, k, h, hin => by
    rw [List.foldl_cons]
    refine collectRemoved_snd_mono txs _ k h ?_
    rw [collectRemoved]
    split_ifs
    · simp [inGroups_addToGroup, hin]
    · exact hin

/-- A grouped hash comes from a given transaction of that key, and was in the set. -/
theorem collectRemoved_snd_sound : ∀ (txs : List (SignedTransaction A K))
    (st : Finset H × List (H × Finset H)) (k h : H),
    inGroups (txs.foldl (collectRemoved hashTx keyHash pool) st).2 k h = true →
      inGroups st.2 k h = true ∨
        (h ∈ st.1 ∧ ∃ t ∈ txs, t.getHash hashTx = h ∧ pool.keyOf keyHash t = k)
  | [], _, _, _, hin => .inl hin
  | t :: txs, st, k, h, hin => by
    rw [List.foldl_cons] at hin
    rcases collectRemoved_snd_sound txs _ k h hin with hin | ⟨hst, t', ht', hh, hk⟩
    · rw [collectRemoved] at hin
      split_ifs at hin with ht
      · rw [inGroups_addToGroup] at hin
        rcases Bool.or_eq_true_iff.mp hin with hnew | hin
        · obtain ⟨rfl, rfl⟩ := of_decide_eq_true hnew
          exact .inr ⟨ht, t, List.mem_cons_self, rfl, rfl⟩
        · exact .inl hin
      · exact .inl hin
    · refine .inr ⟨?_, t', List.mem_cons_of_mem t ht', hh, hk⟩
      rw [collectRemoved] at hst
      split_ifs at hst
      · exact Finset.mem_of_mem_erase hst
      · exact hst

/-- A hash of the set that some given transaction has is grouped under the key of one of them. -/
theorem collectRemoved_snd_complete : ∀ (txs : List (SignedTransaction A K))
    (st : Finset H × List (H × Finset H)) (h : H), h ∈ st.1 → h ∈ txs.map (·.getHash hashTx) →
      ∃ t ∈ txs, t.getHash hashTx = h ∧
        inGroups (txs.foldl (collectRemoved hashTx keyHash pool) st).2 (pool.keyOf keyHash t) h = true
  | [], _, _, _, hmem => by simp at hmem
  | t :: txs, st, h, hst, hmem => by
    rw [List.foldl_cons]
    by_cases hth : t.getHash hashTx = h
    · -- the first transaction with the hash groups it
      refine ⟨t, List.mem_cons_self, hth, collectRemoved_snd_mono pool txs _ _ _ ?_⟩
      rw [collectRemoved, if_pos (hth ▸ hst), inGroups_addToGroup]
      simp [hth]
    · have hrest : h ∈ txs.map (·.getHash hashTx) := by
        simp only [List.map_cons, List.mem_cons] at hmem
        exact hmem.resolve_left (Ne.symm hth)
      have hst' : h ∈ (collectRemoved hashTx keyHash pool st t).1 := by
        rw [collectRemoved]
        split_ifs
        · exact Finset.mem_erase.mpr ⟨Ne.symm hth, hst⟩
        · exact hst
      obtain ⟨t', ht', hh, hin⟩ := collectRemoved_snd_complete txs _ h hst' hrest
      exact ⟨t', List.mem_cons_of_mem t ht', hh, hin⟩

end Collect

/-- **`remove_transactions` keeps the invariant and never panics**: the stored transactions whose
hash is among the given ones go, hashes and sizes with them. A given transaction with the hash of
a stored one has its key, as the hash of a transaction determines its signer and public key. -/
theorem PoolInv.removeTransactions (hinv : PoolInv hashTx keyHash pool)
    (txs : List (SignedTransaction A K))
    (hcons : ∀ t ∈ txs, ∀ s ∈ pool.stored, t.getHash hashTx = s.getHash hashTx →
      pool.keyOf keyHash t = pool.keyOf keyHash s) :
    ∃ p', pool.removeTransactions hashTx keyHash txs = some p' ∧ PoolInv hashTx keyHash p' ∧
      p'.stored.Perm (pool.stored.filter fun s => s.getHash hashTx ∉ txs.map (·.getHash hashTx)) ∧
      ∀ t ∈ txs, t.getHash hashTx ∉ p'.uniqueTransactions := by
  set st := txs.foldl (collectRemoved hashTx keyHash pool) (pool.uniqueTransactions, []) with hst
  obtain ⟨p', hrun, hu, -, hlim, hperm, hsize, hg⟩ := removeGroups_spec hashTx st.2
    { pool with uniqueTransactions := st.1 } ⟨hinv.nonempty, hinv.keyed⟩ hinv.size_eq
  have hperm' : p'.stored.Perm
      (pool.stored.filter fun s => !inGroups st.2 (pool.keyOf keyHash s) (s.getHash hashTx)) :=
    hperm
  have hunique : ∀ h, h ∈ p'.uniqueTransactions ↔
      h ∈ pool.uniqueTransactions ∧ h ∉ txs.map (·.getHash hashTx) := fun h => by
    rw [hu]
    exact mem_collectRemoved_fst pool txs _ h
  -- a stored transaction goes exactly when its hash is among the given ones
  have hgone : ∀ s ∈ pool.stored, inGroups st.2 (pool.keyOf keyHash s) (s.getHash hashTx) =
      decide (s.getHash hashTx ∈ txs.map (·.getHash hashTx)) := by
    intro s hs
    refine Bool.eq_iff_iff.mpr ⟨fun hin => ?_, fun hmem => ?_⟩
    · rcases collectRemoved_snd_sound pool txs _ _ _ hin with hin | ⟨-, t, ht, hh, -⟩
      · simp [inGroups] at hin
      · exact decide_eq_true (List.mem_map.mpr ⟨t, ht, hh⟩)
    · obtain ⟨t, ht, hh, hin⟩ := collectRemoved_snd_complete pool txs
        (pool.uniqueTransactions, []) _ (hinv.mem_unique s hs) (of_decide_eq_true hmem)
      rwa [hcons t ht s hs hh] at hin
  have hfilter : p'.stored.Perm
      (pool.stored.filter fun s => s.getHash hashTx ∉ txs.map (·.getHash hashTx)) := by
    refine hperm'.trans (List.Perm.of_eq (List.filter_congr fun s hs => ?_))
    rw [hgone s hs, decide_not]
  have hmem : ∀ s ∈ p'.stored, s ∈ pool.stored ∧ s.getHash hashTx ∉ txs.map (·.getHash hashTx) :=
    fun s hs => by simpa using hfilter.mem_iff.mp hs
  have hle : (p'.stored.map (·.size)).sum ≤ pool.totalTransactionSize := by
    rw [(hfilter.map _).sum_nat, hinv.size_eq, ← sum_map_filter_add _ pool.stored]
    exact Nat.le_add_right _ _
  have hlt := hinv.size_lt
  refine ⟨p', hrun, ⟨⟨hg.nonempty, hg.keyed⟩, ?_, fun s hs => ?_, fun hnone h hh => ?_, hsize,
    by omega⟩, hfilter, fun t ht h' => ((hunique _).mp h').2 (List.mem_map_of_mem ht)⟩
  · exact (hfilter.map _).nodup_iff.mpr ((List.filter_sublist.map _).nodup hinv.nodup)
  · obtain ⟨hs, hnot⟩ := hmem s hs
    exact (hunique _).mpr ⟨hinv.mem_unique s hs, hnot⟩
  · obtain ⟨hh, hnot⟩ := (hunique h).mp hh
    obtain ⟨s, hs, rfl⟩ := hinv.unique_stored (hlim.symm.trans hnone) h hh
    exact ⟨s, hfilter.mem_iff.mpr (List.mem_filter.mpr ⟨hs, by simpa using hnot⟩), rfl⟩

/-! ## Pool-iterator sessions -/

/-- The transactions a session still holds: those of the map, then those of the queued groups. -/
def PoolIteratorWrapper.live (w : PoolIteratorWrapper A K S H) : List (SignedTransaction A K) :=
  w.pool.stored ++ w.sortedGroups.flatMap (·.transactions)

/-- The hashes the queued groups have handed out and not yet taken out of the set. -/
def PoolIteratorWrapper.pending (w : PoolIteratorWrapper A K S H) : List H :=
  w.sortedGroups.flatMap (·.removedTransactionHashes)

/-- The keys of the map and of the queued groups. -/
def PoolIteratorWrapper.keys (w : PoolIteratorWrapper A K S H) : List H :=
  w.pool.transactions.entries.map Prod.fst ++ w.sortedGroups.map (·.key)

variable (hashTx keyHash) in
/-- What holds during a session started on the pool `p₀` that has handed out `yielded`: every
transaction of `p₀` is held or handed out, the hashes handed out leave the set when their group
is retired, and the total counts what is held and what the queued groups have handed out. -/
structure SessionInv (p₀ : TransactionPool A K S H) (w : PoolIteratorWrapper A K S H)
    (yielded : List (SignedTransaction A K)) : Prop where
  keySeed : w.pool.keySeed = p₀.keySeed
  limit : w.pool.totalTransactionSizeLimit = p₀.totalTransactionSizeLimit
  groups : GroupsKeyed keyHash w.pool
  group_keyed : ∀ g ∈ w.sortedGroups, ∀ tx ∈ g.transactions, p₀.keyOf keyHash tx = g.key
  keys_nodup : w.keys.Nodup
  perm : (w.live ++ yielded).Perm p₀.stored
  unique_iff : ∀ h, h ∈ w.pool.uniqueTransactions ↔
    h ∈ p₀.uniqueTransactions ∧ (h ∈ yielded.map (·.getHash hashTx) → h ∈ w.pending)
  pending_sub : ∀ h ∈ w.pending, h ∈ yielded.map (·.getHash hashTx)
  pending_nodup : w.pending.Nodup
  size_eq : w.pool.totalTransactionSize =
    (w.live.map (·.size)).sum + (w.sortedGroups.map (·.removedTransactionSize)).sum
  size_le : w.pool.totalTransactionSize ≤ p₀.totalTransactionSize

variable (keyHash) in
/-- The order of what a session hands out: within each key by non-decreasing nonce, and a queued
group's remaining transactions, from the back, continue that order. -/
structure OrderInv (p₀ : TransactionPool A K S H) (w : PoolIteratorWrapper A K S H)
    (yielded : List (SignedTransaction A K)) : Prop where
  group_sorted : ∀ g ∈ w.sortedGroups,
    (yielded.filter (p₀.keyOf keyHash · = g.key) ++ g.transactions.reverse).Pairwise
      (·.transaction.nonce ≤ ·.transaction.nonce)
  yielded_sorted : ∀ k, (yielded.filter (p₀.keyOf keyHash · = k)).Pairwise
    (·.transaction.nonce ≤ ·.transaction.nonce)
  fresh : ∀ y ∈ yielded, p₀.keyOf keyHash y ∉ w.pool.transactions.entries.map Prod.fst

theorem mem_removeHashes {u : Finset H} {hs : List H} {h : H} :
    h ∈ removeHashes u hs ↔ h ∈ u ∧ h ∉ hs := by
  induction hs generalizing u with
  | nil => simp [removeHashes]
  | cons x hs ih =>
    change h ∈ removeHashes (u.erase x) hs ↔ _
    rw [ih, Finset.mem_erase, List.mem_cons]
    tauto

theorem retireGroup_eq {g : TransactionGroup A K H}
    (h : g.removedTransactionSize ≤ pool.totalTransactionSize) :
    retireGroup pool g = some { pool with
      uniqueTransactions := removeHashes pool.uniqueTransactions g.removedTransactionHashes
      totalTransactionSize := pool.totalTransactionSize - g.removedTransactionSize } := by
  simp [retireGroup, subU64, h]

theorem sessionInv_poolIterator (hinv : PoolInv hashTx keyHash pool) :
    SessionInv hashTx keyHash pool pool.poolIterator [] where
  keySeed := rfl
  limit := rfl
  groups := hinv.toGroupsKeyed
  group_keyed := by simp [TransactionPool.poolIterator]
  keys_nodup := by
    simpa [TransactionPool.poolIterator, PoolIteratorWrapper.keys] using
      pool.transactions.nodup_keys
  perm := by simp [TransactionPool.poolIterator, PoolIteratorWrapper.live]
  unique_iff h := by simp [TransactionPool.poolIterator]
  pending_sub := by simp [TransactionPool.poolIterator, PoolIteratorWrapper.pending]
  pending_nodup := by simp [TransactionPool.poolIterator, PoolIteratorWrapper.pending]
  size_eq := by
    simpa [TransactionPool.poolIterator, PoolIteratorWrapper.live] using hinv.size_eq
  size_le := le_rfl

theorem orderInv_poolIterator : OrderInv keyHash pool pool.poolIterator [] where
  group_sorted := by simp [TransactionPool.poolIterator]
  yielded_sorted := by simp
  fresh := by simp

section Queue

variable {p₀ : TransactionPool A K S H} {yielded : List (SignedTransaction A K)}

theorem pending_cons (pool pool' : TransactionPool A K S H) (g : TransactionGroup A K H)
    (rest : List (TransactionGroup A K H)) :
    (⟨pool, g :: rest⟩ : PoolIteratorWrapper A K S H).pending =
      g.removedTransactionHashes ++ (⟨pool', rest⟩ : PoolIteratorWrapper A K S H).pending := by
  simp [PoolIteratorWrapper.pending]

/-- The handed-out hashes of a retired group leave the set, which then agrees with the session's
description for the queue without it. -/
theorem SessionInv.unique_retire {g : TransactionGroup A K H} {rest : List (TransactionGroup A K H)}
    (hs : SessionInv hashTx keyHash p₀ ⟨pool, g :: rest⟩ yielded) (h : H) :
    h ∈ removeHashes pool.uniqueTransactions g.removedTransactionHashes ↔
      h ∈ p₀.uniqueTransactions ∧ (h ∈ yielded.map (·.getHash hashTx) →
        h ∈ (⟨pool', rest⟩ : PoolIteratorWrapper A K S H).pending) := by
  have hpend := pending_cons pool pool' g rest
  have hnodup := hs.pending_nodup
  rw [hpend, List.nodup_append] at hnodup
  rw [mem_removeHashes, hs.unique_iff h, hpend]
  constructor
  · rintro ⟨⟨hu, himp⟩, hnot⟩
    exact ⟨hu, fun hy => (List.mem_append.mp (himp hy)).resolve_left hnot⟩
  · rintro ⟨hu, himp⟩
    refine ⟨⟨hu, fun hy => List.mem_append_right _ (himp hy)⟩, fun hg => ?_⟩
    -- a hash the group handed out is pending nowhere else
    have hy := hs.pending_sub h (by rw [hpend]; exact List.mem_append_left _ hg)
    exact hnodup.2.2 h hg h (himp hy) rfl

/-- **Retiring the front group**, as `next` does with an empty one and the drop with each: its
handed-out hashes and size leave the pool, and what it still holds goes back into the map. -/
theorem SessionInv.dropGroup {g : TransactionGroup A K H} {rest : List (TransactionGroup A K H)}
    (hs : SessionInv hashTx keyHash p₀ ⟨pool, g :: rest⟩ yielded) :
    ∃ pool', dropGroup pool g = some pool' ∧
      SessionInv hashTx keyHash p₀ ⟨pool', rest⟩ yielded ∧
      (g.transactions = [] → pool'.transactions = pool.transactions) := by
  have hsize := hs.size_eq
  simp only [PoolIteratorWrapper.live, List.flatMap_cons, List.map_cons, List.sum_cons,
    List.map_append, List.sum_append] at hsize
  have hle : g.removedTransactionSize ≤ pool.totalTransactionSize := by omega
  have hkeys := hs.keys_nodup
  simp only [PoolIteratorWrapper.keys, List.map_cons] at hkeys
  have hfresh : g.key ∉ pool.transactions.entries.map Prod.fst := fun hk =>
    (List.nodup_append.mp hkeys).2.2 _ hk _ List.mem_cons_self rfl
  have hget : pool.transactions.get g.key = none := by
    refine List.lookup_eq_none_iff.mpr fun e he => ?_
    have hne : g.key ≠ e.1 := fun h => hfresh (h ▸ List.mem_map_of_mem he)
    simpa using hne
  -- the map after the drop, and what it stores
  set t := if g.transactions.isEmpty then pool.transactions
    else pool.transactions.insert g.key g.transactions with ht
  have hstored : (t.entries.flatMap Prod.snd).Perm (g.transactions ++ pool.stored) := by
    by_cases hemp : g.transactions.isEmpty
    · simp [ht, List.isEmpty_iff.mp hemp, TransactionPool.stored]
    · simp only [ht, hemp, Bool.false_eq_true, if_false]
      simpa [TransactionPool.stored, SortedMap.erase_eq_self hget] using
        SortedMap.perm_flatMap_insert (m := pool.transactions) (k := g.key) (v := g.transactions)
          Prod.snd
  have hkeys' : (t.entries.map Prod.fst ++ rest.map (·.key)).Nodup := by
    by_cases hemp : g.transactions.isEmpty
    · simp only [ht, hemp, if_true]
      exact hkeys.sublist (List.Sublist.append_left (List.sublist_cons_self _ _) _)
    · simp only [ht, hemp, Bool.false_eq_true, if_false]
      refine ((((SortedMap.perm_insert).map Prod.fst).append_right _).nodup_iff).mpr ?_
      rw [SortedMap.erase_eq_self hget]
      simpa using List.perm_middle.nodup_iff.mp hkeys
  refine ⟨{ pool with
      uniqueTransactions := removeHashes pool.uniqueTransactions g.removedTransactionHashes
      totalTransactionSize := pool.totalTransactionSize - g.removedTransactionSize
      transactions := t },
    by simp only [Unc.dropGroup, retireGroup_eq hle, Option.map_some, ht]; split <;> rfl,
    ⟨hs.keySeed, hs.limit, ?_, fun g' hg' => hs.group_keyed g' (List.mem_cons_of_mem g hg'),
      hkeys', ?_, hs.unique_retire, fun h hh => hs.pending_sub h ?_, ?_, ?_, ?_⟩,
    fun hemp => by simp [ht, hemp]⟩
  · by_cases hemp : g.transactions.isEmpty
    · exact hs.groups.erase (k := g.key) rfl (by simp [ht, hemp, SortedMap.erase_eq_self hget])
    · refine hs.groups.insert (k := g.key) (v := g.transactions) rfl (by simp [ht, hemp])
        (by simpa using hemp) fun tx htx => ?_
      rw [keyOf_congr hs.keySeed]
      exact hs.group_keyed g List.mem_cons_self tx htx
  · refine List.Perm.trans ?_ hs.perm
    simp only [PoolIteratorWrapper.live, TransactionPool.stored_mk, List.flatMap_cons,
      List.append_assoc]
    refine (hstored.append_right _).trans ?_
    simpa [List.append_assoc] using List.perm_append_comm_assoc g.transactions pool.stored _
  · rw [pending_cons _ pool]
    exact List.mem_append_right _ hh
  · have := hs.pending_nodup
    rw [pending_cons _ pool] at this
    exact (List.nodup_append.mp this).2.1
  · have hlive := (hstored.map (·.size)).sum_nat
    simp only [List.map_append, List.sum_append] at hlive
    simp only [PoolIteratorWrapper.live, TransactionPool.stored_mk, List.map_append,
      List.sum_append]
    omega
  · have := hs.size_le
    dsimp only at this ⊢
    omega

theorem OrderInv.dropEmpty {g : TransactionGroup A K H} {rest : List (TransactionGroup A K H)}
    (ho : OrderInv keyHash p₀ ⟨pool, g :: rest⟩ yielded)
    (ht : pool'.transactions = pool.transactions) :
    OrderInv keyHash p₀ ⟨pool', rest⟩ yielded where
  group_sorted g' hg' := ho.group_sorted g' (List.mem_cons_of_mem g hg')
  yielded_sorted := ho.yielded_sorted
  fresh y hy := by
    rw [ht]
    exact ho.fresh y hy

/-- The session's description does not depend on the order of the queue. -/
theorem SessionInv.perm_queue {gs gs' : List (TransactionGroup A K H)} (hq : gs'.Perm gs)
    (hs : SessionInv hashTx keyHash p₀ ⟨pool, gs⟩ yielded) :
    SessionInv hashTx keyHash p₀ ⟨pool, gs'⟩ yielded := by
  have hlive : (PoolIteratorWrapper.live ⟨pool, gs'⟩).Perm (PoolIteratorWrapper.live ⟨pool, gs⟩) :=
    (hq.flatMap_right _).append_left _
  have hpend : (PoolIteratorWrapper.pending ⟨pool, gs'⟩).Perm
      (PoolIteratorWrapper.pending ⟨pool, gs⟩) := hq.flatMap_right _
  refine ⟨hs.keySeed, hs.limit, hs.groups, fun g hg => hs.group_keyed g (hq.mem_iff.mp hg),
    ((hq.map _).append_left _).nodup_iff.mpr hs.keys_nodup, (hlive.append_right _).trans hs.perm,
    fun h => by rw [hs.unique_iff h, hpend.mem_iff], fun h hh => hs.pending_sub h (hpend.mem_iff.mp hh),
    hpend.nodup_iff.mpr hs.pending_nodup, ?_, hs.size_le⟩
  rw [hs.size_eq, (hlive.map _).sum_nat, ((hq.map _).sum_nat)]

theorem OrderInv.perm_queue {gs gs' : List (TransactionGroup A K H)} (hq : gs'.Perm gs)
    (ho : OrderInv keyHash p₀ ⟨pool, gs⟩ yielded) : OrderInv keyHash p₀ ⟨pool, gs'⟩ yielded where
  group_sorted g hg := ho.group_sorted g (hq.mem_iff.mp hg)
  yielded_sorted := ho.yielded_sorted
  fresh := ho.fresh

theorem dropGroup_of_isEmpty {g : TransactionGroup A K H} (h : g.transactions.isEmpty) :
    dropGroup pool g = retireGroup pool g := by
  simp [dropGroup, h]

/-- **The loop of `next` over an empty map** never panics: empty groups at the front are
retired, and the queue is rotated to the first non-empty one. -/
theorem discardEmptyGroups_spec : ∀ (gs : List (TransactionGroup A K H))
    (pool : TransactionPool A K S H), pool.transactions.entries = [] →
    SessionInv hashTx keyHash p₀ ⟨pool, gs⟩ yielded → OrderInv keyHash p₀ ⟨pool, gs⟩ yielded →
    ∃ w' b, discardEmptyGroups pool gs = some (w', b) ∧
      SessionInv hashTx keyHash p₀ w' yielded ∧ OrderInv keyHash p₀ w' yielded
  | [], pool, _, hs, ho => ⟨_, _, rfl, hs, ho⟩
  | g :: rest, pool, hempty, hs, ho => by
    by_cases hemp : g.transactions.isEmpty
    · obtain ⟨pool', hdrop, hs', hmap⟩ := hs.dropGroup
      have hmap := hmap (List.isEmpty_iff.mp hemp)
      rw [dropGroup_of_isEmpty hemp] at hdrop
      obtain ⟨w', b, hrun, hs'', ho''⟩ := discardEmptyGroups_spec rest pool'
        (by rw [hmap, hempty]) hs' (ho.dropEmpty hmap)
      exact ⟨w', b, by rw [discardEmptyGroups, if_pos hemp, hdrop, Option.bind_some]; exact hrun,
        hs'', ho''⟩
    · have hq := List.perm_append_singleton g rest
      exact ⟨_, _, by rw [discardEmptyGroups, if_neg hemp], hs.perm_queue hq, ho.perm_queue hq⟩

theorem sortByReverseNonce_perm (txs : List (SignedTransaction A K)) :
    (sortByReverseNonce txs).Perm txs :=
  List.mergeSort_perm _ _

theorem pairwise_sortByReverseNonce (txs : List (SignedTransaction A K)) :
    (sortByReverseNonce txs).reverse.Pairwise (·.transaction.nonce ≤ ·.transaction.nonce) := by
  have hsorted : (sortByReverseNonce txs).Pairwise
      fun a b => decide (b.transaction.nonce ≤ a.transaction.nonce) = true :=
    List.pairwise_mergeSort (fun _ _ _ hab hbc => by simp only [decide_eq_true_eq] at *; omega)
      (fun a b => by simp only [Bool.or_eq_true, decide_eq_true_eq]; omega) txs
  exact List.pairwise_reverse.mpr (hsorted.imp fun h => of_decide_eq_true h)

theorem next_of_ne_nil {w : PoolIteratorWrapper A K S H} (hne : w.pool.transactions.entries ≠ []) :
    ∃ e ∈ w.pool.transactions.entries, w.next = some (⟨{ w.pool with
        lastUsedKey := e.1
        transactions := w.pool.transactions.erase e.1 },
      w.sortedGroups ++ [⟨e.1, sortByReverseNonce e.2, [], 0⟩]⟩, true) := by
  have hkey : ∃ e ∈ w.pool.transactions.entries, w.pool.nextKey = some e.1 := by
    unfold TransactionPool.nextKey
    split
    · next e he => exact ⟨e, List.mem_of_find?_eq_some he, rfl⟩
    · cases hh : w.pool.transactions.entries with
      | nil => exact absurd hh hne
      | cons e l => exact ⟨e, List.mem_cons_self, by simp⟩
  obtain ⟨e, he, hkey⟩ := hkey
  refine ⟨e, he, ?_⟩
  rw [PoolIteratorWrapper.next, if_neg (by simpa using hne)]
  simp [hkey, SortedMap.get_of_mem he]

/-- **`next` on a non-empty map**: the group of the key it picks leaves the map, sorted, for the
back of the queue. -/
theorem SessionInv.takeGroup {w : PoolIteratorWrapper A K S H}
    {e : H × List (SignedTransaction A K)} (he : e ∈ w.pool.transactions.entries)
    (hs : SessionInv hashTx keyHash p₀ w yielded) :
    SessionInv hashTx keyHash p₀ ⟨{ w.pool with
        lastUsedKey := e.1
        transactions := w.pool.transactions.erase e.1 },
      w.sortedGroups ++ [⟨e.1, sortByReverseNonce e.2, [], 0⟩]⟩ yielded := by
  have hget := SortedMap.get_of_mem he
  have hstored : w.pool.stored.Perm (e.2 ++ (w.pool.transactions.erase e.1).entries.flatMap Prod.snd) :=
    SortedMap.perm_flatMap_of_get Prod.snd hget
  have hlive : (w.pool.transactions.erase e.1).entries.flatMap Prod.snd ++
      (w.sortedGroups.flatMap (·.transactions) ++ sortByReverseNonce e.2) |>.Perm w.live := by
    refine (((sortByReverseNonce_perm e.2).append_left _).append_left _).trans ?_
    refine (List.perm_append_comm.append_left _).trans ((List.perm_append_comm_assoc _ _ _).trans ?_)
    rw [← List.append_assoc]
    exact hstored.symm.append_right _
  have hkeys : (w.pool.transactions.erase e.1).entries.map Prod.fst ++
      (w.sortedGroups.map (·.key) ++ [e.1]) |>.Perm w.keys := by
    refine ((List.perm_append_singleton _ _).append_left _).trans (List.perm_middle.trans ?_)
    exact (((SortedMap.perm_erase hget).map Prod.fst).append_right _).symm
  refine ⟨hs.keySeed, hs.limit, hs.groups.erase rfl rfl, fun g hg tx htx => ?_, ?_, ?_,
    fun h => ?_, fun h hh => hs.pending_sub h ?_, ?_, ?_, hs.size_le⟩
  · rcases List.mem_append.mp hg with hg | hg
    · exact hs.group_keyed g hg tx htx
    · rw [List.mem_singleton.mp hg] at htx ⊢
      rw [← keyOf_congr hs.keySeed]
      exact hs.groups.keyed e he tx ((sortByReverseNonce_perm e.2).mem_iff.mp htx)
  · simpa [PoolIteratorWrapper.keys] using hkeys.nodup_iff.mpr hs.keys_nodup
  · simpa [PoolIteratorWrapper.live] using (hlive.append_right _).trans hs.perm
  · simpa [PoolIteratorWrapper.pending] using hs.unique_iff h
  · simpa [PoolIteratorWrapper.pending] using hh
  · simpa [PoolIteratorWrapper.pending] using hs.pending_nodup
  · have hsum := (hlive.map (·.size)).sum_nat
    rw [hs.size_eq]
    simp only [PoolIteratorWrapper.live, List.map_append, List.sum_append, List.flatMap_append,
      TransactionPool.stored_mk] at hsum ⊢
    simp
    omega

theorem OrderInv.takeGroup {w : PoolIteratorWrapper A K S H}
    {e : H × List (SignedTransaction A K)} (he : e ∈ w.pool.transactions.entries)
    (ho : OrderInv keyHash p₀ w yielded) :
    OrderInv keyHash p₀ ⟨{ w.pool with
        lastUsedKey := e.1
        transactions := w.pool.transactions.erase e.1 },
      w.sortedGroups ++ [⟨e.1, sortByReverseNonce e.2, [], 0⟩]⟩ yielded where
  group_sorted g hg := by
    rcases List.mem_append.mp hg with hg | hg
    · exact ho.group_sorted g hg
    · rw [List.mem_singleton.mp hg]
      -- nothing of that key has been handed out: the key was still in the map
      have hnone : yielded.filter (p₀.keyOf keyHash · = e.1) = [] :=
        List.filter_eq_nil_iff.mpr fun y hy hk => ho.fresh y hy (by
          rw [of_decide_eq_true hk]
          exact List.mem_map_of_mem (f := Prod.fst) he)
      rw [hnone, List.nil_append]
      exact pairwise_sortByReverseNonce e.2
  yielded_sorted := ho.yielded_sorted
  fresh y hy hk := ho.fresh y hy (by
    obtain ⟨e', he', hk⟩ := List.mem_map.mp hk
    exact hk ▸ List.mem_map_of_mem (SortedMap.mem_erase.mp he').1)

/-- **`next` never panics** and keeps the session's description and order. -/
theorem SessionInv.next {w : PoolIteratorWrapper A K S H}
    (hs : SessionInv hashTx keyHash p₀ w yielded) (ho : OrderInv keyHash p₀ w yielded) :
    ∃ w' b, w.next = some (w', b) ∧
      SessionInv hashTx keyHash p₀ w' yielded ∧ OrderInv keyHash p₀ w' yielded := by
  by_cases hne : w.pool.transactions.entries = []
  · rw [PoolIteratorWrapper.next, if_pos (by simp [hne])]
    exact discardEmptyGroups_spec w.sortedGroups w.pool hne hs ho
  · obtain ⟨e, he, hnext⟩ := next_of_ne_nil hne
    exact ⟨_, _, hnext, hs.takeGroup he, ho.takeGroup he⟩

variable (hashTx) in
/-- The group `TransactionGroup::next` leaves after popping `tx`. -/
def TransactionGroup.popped (g : TransactionGroup A K H) (rest : List (SignedTransaction A K))
    (tx : SignedTransaction A K) : TransactionGroup A K H :=
  { g with
    transactions := rest
    removedTransactionHashes := g.removedTransactionHashes ++ [tx.getHash hashTx]
    removedTransactionSize := g.removedTransactionSize + tx.size }

variable (hashTx) in
theorem groupNext_pop {front : List (TransactionGroup A K H)} {g : TransactionGroup A K H}
    {rest : List (SignedTransaction A K)} {tx : SignedTransaction A K}
    (htx : g.transactions = rest ++ [tx]) (hlt : g.removedTransactionSize + tx.size < 2 ^ 64) :
    PoolIteratorWrapper.groupNext hashTx ⟨pool, front ++ [g]⟩ =
      some (⟨pool, front ++ [g.popped hashTx rest tx]⟩, some tx) := by
  simp [PoolIteratorWrapper.groupNext, TransactionGroup.next, htx, addU64_of_lt hlt,
    TransactionGroup.popped]

variable (hashTx) in
theorem groupNext_of_nil {front : List (TransactionGroup A K H)} {g : TransactionGroup A K H}
    (htx : g.transactions = []) :
    PoolIteratorWrapper.groupNext hashTx ⟨pool, front ++ [g]⟩ =
      some (⟨pool, front ++ [g]⟩, none) := by
  simp [PoolIteratorWrapper.groupNext, TransactionGroup.next, htx]

/-- **A pop** moves the last transaction of a group from what the session holds to what it has
handed out, and its hash to what the group has handed out. -/
theorem SessionInv.pop (hinv₀ : PoolInv hashTx keyHash p₀) {front : List (TransactionGroup A K H)}
    {g : TransactionGroup A K H} {rest : List (SignedTransaction A K)} {tx : SignedTransaction A K}
    (htx : g.transactions = rest ++ [tx])
    (hs : SessionInv hashTx keyHash p₀ ⟨pool, front ++ [g]⟩ yielded) :
    g.removedTransactionSize + tx.size < 2 ^ 64 ∧
      SessionInv hashTx keyHash p₀ ⟨pool, front ++ [g.popped hashTx rest tx]⟩ (yielded ++ [tx]) := by
  have hsize := hs.size_eq
  have hle := hs.size_le
  simp only [PoolIteratorWrapper.live, List.flatMap_append, List.flatMap_cons, List.flatMap_nil,
    List.append_nil, htx, List.map_append, List.sum_append, List.map_cons, List.map_nil,
    List.sum_cons, List.sum_nil] at hsize hle
  have hlt := hinv₀.size_lt
  -- the popped transaction is held, so its hash is not among those handed out
  have hnodup : ((PoolIteratorWrapper.live ⟨pool, front ++ [g]⟩ ++ yielded).map
      (·.getHash hashTx)).Nodup := (hs.perm.map _).nodup_iff.mpr hinv₀.nodup
  have htxlive : tx ∈ PoolIteratorWrapper.live ⟨pool, front ++ [g]⟩ := by
    simp [PoolIteratorWrapper.live, htx]
  have hfresh : tx.getHash hashTx ∉ yielded.map (·.getHash hashTx) := fun hy => by
    rw [List.map_append, List.nodup_append] at hnodup
    exact hnodup.2.2 _ (List.mem_map_of_mem htxlive) _ hy rfl
  have hpend : (PoolIteratorWrapper.pending ⟨pool, front ++ [g.popped hashTx rest tx]⟩) =
      PoolIteratorWrapper.pending ⟨pool, front ++ [g]⟩ ++ [tx.getHash hashTx] := by
    simp [PoolIteratorWrapper.pending, TransactionGroup.popped]
  have hlive : (PoolIteratorWrapper.live ⟨pool, front ++ [g.popped hashTx rest tx]⟩ ++
      (yielded ++ [tx])).Perm (PoolIteratorWrapper.live ⟨pool, front ++ [g]⟩ ++ yielded) := by
    simp only [PoolIteratorWrapper.live, List.flatMap_append, List.flatMap_cons, List.flatMap_nil,
      List.append_nil, htx, TransactionGroup.popped, List.append_assoc]
    refine List.Perm.append_left _ (List.Perm.append_left _ (List.Perm.append_left _ ?_))
    exact List.perm_append_comm
  refine ⟨by omega, hs.keySeed, hs.limit, hs.groups, fun g' hg' t ht => ?_, ?_,
    hlive.trans hs.perm, fun h => ?_, fun h hh => ?_, ?_, ?_, hs.size_le⟩
  · rcases List.mem_append.mp hg' with hg' | hg'
    · exact hs.group_keyed g' (List.mem_append_left _ hg') t ht
    · rw [List.mem_singleton.mp hg'] at ht ⊢
      exact hs.group_keyed g (by simp) t (by simp [htx, TransactionGroup.popped] at ht ⊢; exact .inl ht)
  · simpa [PoolIteratorWrapper.keys, TransactionGroup.popped] using hs.keys_nodup
  · rw [hs.unique_iff h, hpend]
    simp only [List.map_append, List.map_cons, List.map_nil, List.mem_append, List.mem_singleton]
    constructor
    · rintro ⟨hu, himp⟩
      exact ⟨hu, fun hy => hy.elim (fun hy => .inl (himp hy)) .inr⟩
    · rintro ⟨hu, himp⟩
      refine ⟨hu, fun hy => (himp (.inl hy)).resolve_right fun heq => hfresh (heq ▸ hy)⟩
  · rw [hpend, List.mem_append, List.mem_singleton] at hh
    rcases hh with hh | rfl
    · rw [List.map_append]
      exact List.mem_append_left _ (hs.pending_sub h hh)
    · simp
  · rw [hpend, List.nodup_append]
    exact ⟨hs.pending_nodup, List.nodup_singleton _, fun a ha b hb heq => by
      rw [List.mem_singleton] at hb
      exact hfresh (hb ▸ heq ▸ hs.pending_sub a ha)⟩
  · simp only [PoolIteratorWrapper.live, List.flatMap_append, List.flatMap_cons, List.flatMap_nil,
      List.append_nil, TransactionGroup.popped, List.map_append, List.sum_append, List.map_cons,
      List.map_nil, List.sum_cons, List.sum_nil]
    omega

theorem OrderInv.pop {front : List (TransactionGroup A K H)} {g : TransactionGroup A K H}
    {rest : List (SignedTransaction A K)} {tx : SignedTransaction A K}
    (htx : g.transactions = rest ++ [tx])
    (hs : SessionInv hashTx keyHash p₀ ⟨pool, front ++ [g]⟩ yielded)
    (ho : OrderInv keyHash p₀ ⟨pool, front ++ [g]⟩ yielded) :
    OrderInv keyHash p₀ ⟨pool, front ++ [g.popped hashTx rest tx]⟩ (yielded ++ [tx]) := by
  have hkey : p₀.keyOf keyHash tx = g.key := hs.group_keyed g (by simp) tx (by simp [htx])
  have hnodup := hs.keys_nodup
  simp only [PoolIteratorWrapper.keys, List.map_append, List.map_cons, List.map_nil] at hnodup
  have hfront : ∀ g' ∈ front, g'.key ≠ g.key := fun g' hg' heq => by
    have := (List.nodup_append.mp hnodup).2.1
    exact (List.nodup_append.mp this).2.2 _ (List.mem_map_of_mem hg') _ (List.mem_singleton_self _) heq
  have hnotmap : g.key ∉ pool.transactions.entries.map Prod.fst := fun hm =>
    (List.nodup_append.mp hnodup).2.2 _ hm _ (by simp) rfl
  -- the old order of `g`, with `tx` moved from the group to what has been handed out
  have hg := ho.group_sorted g (by simp)
  rw [htx, List.reverse_append, List.reverse_singleton, List.singleton_append,
    ← List.singleton_append, ← List.append_assoc] at hg
  refine ⟨fun g' hg' => ?_, fun k => ?_, fun y hy => ?_⟩
  · rcases List.mem_append.mp hg' with hg' | hg'
    · have hne : ¬ p₀.keyOf keyHash tx = g'.key := hkey ▸ (hfront g' hg').symm
      simpa [List.filter_append, hne] using ho.group_sorted g' (List.mem_append_left _ hg')
    · rw [List.mem_singleton.mp hg']
      have hf : (yielded ++ [tx]).filter (p₀.keyOf keyHash · = g.key) =
          yielded.filter (p₀.keyOf keyHash · = g.key) ++ [tx] := by
        simp [List.filter_append, hkey]
      show List.Pairwise _ ((yielded ++ [tx]).filter (p₀.keyOf keyHash · = g.key) ++ rest.reverse)
      rwa [hf]
  · by_cases hk : p₀.keyOf keyHash tx = k
    · subst hk
      rw [List.filter_append, List.filter_singleton, hkey]
      simpa using hg.sublist (List.sublist_append_left _ _)
    · simpa [List.filter_append, hk] using ho.yielded_sorted k
  · rcases List.mem_append.mp hy with hy | hy
    · exact ho.fresh y hy
    · rw [List.mem_singleton.mp hy, hkey]
      exact hnotmap

/-- **`group_next` never panics**: what it pops is handed out, with the session's description
and order kept. -/
theorem SessionInv.groupNext (hinv₀ : PoolInv hashTx keyHash p₀) {w : PoolIteratorWrapper A K S H}
    (hs : SessionInv hashTx keyHash p₀ w yielded) (ho : OrderInv keyHash p₀ w yielded) :
    ∃ w' o, w.groupNext hashTx = some (w', o) ∧
      SessionInv hashTx keyHash p₀ w' (yielded ++ o.toList) ∧
      OrderInv keyHash p₀ w' (yielded ++ o.toList) := by
  obtain ⟨pool, gs⟩ := w
  cases hq : gs.getLast? with
  | none =>
    refine ⟨_, none, ?_, by simpa using hs, by simpa using ho⟩
    simp [PoolIteratorWrapper.groupNext, hq]
  | some g =>
    obtain ⟨front, rfl⟩ := List.getLast?_eq_some_iff.mp hq
    rcases List.eq_nil_or_concat g.transactions with htx | ⟨rest, tx, htx⟩
    · exact ⟨_, none, groupNext_of_nil hashTx htx, by simpa using hs, by simpa using ho⟩
    · rw [List.concat_eq_append] at htx
      obtain ⟨hlt, hs'⟩ := hs.pop hinv₀ htx
      exact ⟨_, some tx, groupNext_pop hashTx htx hlt, hs', ho.pop htx hs⟩

/-- **A run of steps** never panics: the run lemma of `next` and `group_next`, by induction on
the steps. -/
theorem SessionInv.runSession (hinv₀ : PoolInv hashTx keyHash p₀) (steps : List SessionStep)
    {w : PoolIteratorWrapper A K S H} (hs : SessionInv hashTx keyHash p₀ w yielded)
    (ho : OrderInv keyHash p₀ w yielded) :
    ∃ w' ys, runSession hashTx w steps = some (w', ys) ∧
      SessionInv hashTx keyHash p₀ w' (yielded ++ ys) ∧
      OrderInv keyHash p₀ w' (yielded ++ ys) := by
  induction steps generalizing w yielded with
  | nil => exact ⟨w, [], rfl, by simpa using hs, by simpa using ho⟩
  | cons step steps ih =>
    cases step with
    | next =>
      obtain ⟨w₁, b, hnext, hs₁, ho₁⟩ := hs.next ho
      obtain ⟨w', ys, hrun, hs', ho'⟩ := ih hs₁ ho₁
      exact ⟨w', ys, by simp [Unc.runSession, hnext, hrun], hs', ho'⟩
    | groupNext =>
      obtain ⟨w₁, o, hg, hs₁, ho₁⟩ := hs.groupNext hinv₀ ho
      obtain ⟨w', ys, hrun, hs', ho'⟩ := ih hs₁ ho₁
      refine ⟨w', o.toList ++ ys, by simp [Unc.runSession, hg, hrun], ?_, ?_⟩
      · simpa using hs'
      · simpa using ho'

/-- **The drop** puts every queued group back without panicking. -/
theorem SessionInv.drop {w : PoolIteratorWrapper A K S H}
    (hs : SessionInv hashTx keyHash p₀ w yielded) :
    ∃ p', w.drop = some p' ∧ SessionInv hashTx keyHash p₀ ⟨p', []⟩ yielded := by
  obtain ⟨pool, gs⟩ := w
  -- one `dropGroup` per queued group, front to back
  induction gs generalizing pool with
  | nil => exact ⟨pool, rfl, hs⟩
  | cons g rest ih =>
    obtain ⟨pool₁, hd, hs₁, -⟩ := hs.dropGroup
    obtain ⟨p', hrest, hs'⟩ := ih pool₁ hs₁
    exact ⟨p', by simpa [PoolIteratorWrapper.drop, hd] using hrest, hs'⟩

/-- Once the queue is empty, the session has left a pool that keeps the invariant. -/
theorem SessionInv.poolInv (hinv₀ : PoolInv hashTx keyHash p₀)
    (hs : SessionInv hashTx keyHash p₀ ⟨pool, []⟩ yielded) :
    PoolInv hashTx keyHash pool := by
  have hperm : (pool.stored ++ yielded).Perm p₀.stored := by
    simpa [PoolIteratorWrapper.live] using hs.perm
  have hnodup : ((pool.stored ++ yielded).map (·.getHash hashTx)).Nodup :=
    (hperm.map _).nodup_iff.mpr hinv₀.nodup
  rw [List.map_append, List.nodup_append] at hnodup
  have hunique : ∀ h, h ∈ pool.uniqueTransactions ↔
      h ∈ p₀.uniqueTransactions ∧ h ∉ yielded.map (·.getHash hashTx) := fun h => by
    simpa [PoolIteratorWrapper.pending] using hs.unique_iff h
  refine { hs.groups with
    nodup := hnodup.1
    mem_unique := fun tx htx => (hunique _).mpr ⟨hinv₀.mem_unique tx
      (hperm.subset (List.mem_append_left _ htx)),
      fun hy => hnodup.2.2 _ (List.mem_map_of_mem htx) _ hy rfl⟩
    unique_stored := fun hl h hh => ?_
    size_eq := by simpa [PoolIteratorWrapper.live] using hs.size_eq
    size_lt := lt_of_le_of_lt hs.size_le hinv₀.size_lt }
  obtain ⟨hh₀, hy⟩ := (hunique h).mp hh
  obtain ⟨tx, htx, rfl⟩ := hinv₀.unique_stored (hs.limit ▸ hl) h hh₀
  rcases List.mem_append.mp (hperm.symm.subset htx) with htx | htx
  · exact ⟨tx, htx, rfl⟩
  · exact absurd (List.mem_map_of_mem htx) hy

end Queue

/-! ## Runs -/

/-- **A session** never panics. It hands out the transactions of each key by non-decreasing
nonce; what it hands out has left the pool and its hash `unique_transactions`, and what it does not
is back after the drop. -/
theorem session_spec (hinv : PoolInv hashTx keyHash pool) (steps : List SessionStep) :
    ∃ p' yielded, pool.session hashTx steps = some (p', yielded) ∧
      PoolInv hashTx keyHash p' ∧
      (p'.stored ++ yielded).Perm pool.stored ∧
      (∀ h, h ∈ p'.uniqueTransactions ↔
        h ∈ pool.uniqueTransactions ∧ h ∉ yielded.map (·.getHash hashTx)) ∧
      ∀ k, (yielded.filter (pool.keyOf keyHash · = k)).Pairwise
        (·.transaction.nonce ≤ ·.transaction.nonce) := by
  obtain ⟨w, ys, hrun, hs, ho⟩ :=
    (sessionInv_poolIterator hinv).runSession hinv steps orderInv_poolIterator
  obtain ⟨p', hdrop, hs'⟩ := hs.drop
  rw [List.nil_append] at hs' ho
  refine ⟨p', ys, by simp [TransactionPool.session, hrun, hdrop], hs'.poolInv hinv,
    by simpa [PoolIteratorWrapper.live] using hs'.perm, fun h => ?_, ho.yielded_sorted⟩
  simpa [PoolIteratorWrapper.pending] using hs'.unique_iff h

theorem PoolInv.session (hinv : PoolInv hashTx keyHash pool) {steps : List SessionStep}
    {yielded : List (SignedTransaction A K)}
    (h : pool.session hashTx steps = some (pool', yielded)) : PoolInv hashTx keyHash pool' := by
  obtain ⟨p', ys, hs, hinv', -⟩ := session_spec hinv steps
  rw [h, Option.some_inj, Prod.mk.injEq] at hs
  exact hs.1 ▸ hinv'

/-- Two transactions of one hash have the same signer and public key. -/
def HashDeterminesKey (hashTx : Transaction A K → H) : Prop :=
  ∀ a b, hashTx a = hashTx b → a.signerId = b.signerId ∧ a.publicKey = b.publicKey

theorem keyOf_eq_of_hash (hkey : HashDeterminesKey hashTx) {t s : SignedTransaction A K}
    (h : t.getHash hashTx = s.getHash hashTx) : pool.keyOf keyHash t = pool.keyOf keyHash s := by
  obtain ⟨hsigner, hpk⟩ := hkey _ _ h
  simp [TransactionPool.keyOf, TransactionPool.key, hsigner, hpk]

/-- **One operation** keeps the invariant, and only the `checked_add` of an insertion can panic. -/
theorem PoolInv.step (hinv : PoolInv hashTx keyHash pool) (hkey : HashDeterminesKey hashTx)
    (op : PoolOp A K) :
    (∀ p', pool.step hashTx keyHash op = some p' → PoolInv hashTx keyHash p') ∧
      (pool.step hashTx keyHash op = none →
        ∃ tx, op = .insertTransaction tx ∧ pool.insertTransaction hashTx keyHash tx = none) := by
  cases op with
  | insertTransaction tx =>
    refine ⟨fun p' h => ?_, fun h => ⟨tx, rfl, by simpa [TransactionPool.step] using h⟩⟩
    obtain ⟨⟨p, r⟩, hins, rfl⟩ := Option.map_eq_some_iff.mp h
    exact (hinv.insertTransaction hins).1
  | removeTransactions txs =>
    obtain ⟨p, hrem, hinv', -⟩ :=
      hinv.removeTransactions txs fun t _ s _ h => keyOf_eq_of_hash hkey h
    refine ⟨fun p' h => ?_, fun h => ?_⟩
    · rw [TransactionPool.step, hrem, Option.some_inj] at h
      exact h ▸ hinv'
    · simp [TransactionPool.step, hrem] at h
  | session steps =>
    obtain ⟨p, ys, hses, hinv', -⟩ := session_spec hinv steps
    refine ⟨fun p' h => ?_, fun h => ?_⟩
    · rw [TransactionPool.step, hses, Option.map_some, Option.some_inj] at h
      exact h ▸ hinv'
    · simp [TransactionPool.step, hses] at h

/-- **Every run** of insertions, removals and sessions keeps the invariant, and the only panic on
the way is the `checked_add` of an insertion, at a pool that keeps it. -/
theorem PoolInv.run (hinv : PoolInv hashTx keyHash pool) (hkey : HashDeterminesKey hashTx)
    (ops : List (PoolOp A K)) :
    (∀ p', pool.run hashTx keyHash ops = some p' → PoolInv hashTx keyHash p') ∧
      (pool.run hashTx keyHash ops = none → ∃ p tx, PoolInv hashTx keyHash p ∧
        .insertTransaction tx ∈ ops ∧ p.insertTransaction hashTx keyHash tx = none) := by
  induction ops generalizing pool with
  | nil => exact ⟨fun p' h => Option.some_inj.mp h ▸ hinv, fun h => nomatch h⟩
  | cons op ops ih =>
    obtain ⟨hstep, hpanic⟩ := hinv.step hkey op
    cases hp : pool.step hashTx keyHash op with
    | none =>
      refine ⟨fun p' h => by simp [TransactionPool.run, hp] at h, fun _ => ?_⟩
      obtain ⟨tx, rfl, hnone⟩ := hpanic hp
      exact ⟨pool, tx, hinv, List.mem_cons_self, hnone⟩
    | some p =>
      obtain ⟨hrun, hnone⟩ := ih (hstep p hp)
      refine ⟨fun p' h => hrun p' (by simpa [TransactionPool.run, hp] using h), fun h => ?_⟩
      obtain ⟨q, tx, hq, hmem, hins⟩ := hnone (by simpa [TransactionPool.run, hp] using h)
      exact ⟨q, tx, hq, List.mem_cons_of_mem _ hmem, hins⟩

end Pool

end Unc
