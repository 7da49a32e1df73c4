import GameCredits.Framework.Multimap
import GameCredits.Model.Fees
import GameCredits.Model.Mempool
import GameCredits.Model.ScriptBuild

/-!
# Block templates (miner.cpp)

`CreateNewBlock`. The transactions of the pool are collected into a priority queue, but for those
with a parent in the pool, which wait in `vOrphan` for all of these; then they are taken from the
queue one by one. Both loops are programs on the view of the coins.

A `COrphan*` is a position in `vOrphan`, where `pop_back` leaves freed memory; to read that, or an
output beyond `vout`, is a failed assertion here. What is only logged is left out.
-/

namespace GC

open Framework (Bytes Prog)
open Framework.Heap (makeHeap popHeap pushHeap)
open Function (update)

def LOCKTIME_THRESHOLD : Int := 500000000

/-- `IsFinalTx`. -/
def isFinalTx (tx : CTransaction) (nBlockHeight : Nat) (nBlockTime : Int) : Bool :=
  let nLockTime : Int := tx.nLockTime.toNat
  tx.nLockTime == 0 ||
    decide (nLockTime < if nLockTime < LOCKTIME_THRESHOLD then (nBlockHeight : Int) else nBlockTime) ||
    tx.vin.all fun txin => txin.nSequence == 0xFFFFFFFF

/-! ## Priorities -/

/-- The loop of `CalculateModifiedSize`. -/
def modifiedSizeFrom (nTxSize : Nat) : List CTxIn → Nat
  | [] => nTxSize
  | txin :: vin =>
    let offset := 41 + min 110 txin.scriptSig.length
    modifiedSizeFrom (if offset < nTxSize then nTxSize - offset else nTxSize) vin

/-- `CTransaction::CalculateModifiedSize`. -/
def calculateModifiedSize (tx : CTransaction) (nTxSize : Nat) : Nat :=
  modifiedSizeFrom (if nTxSize = 0 then tx.getSerializeSize else nTxSize) tx.vin

/-- `CTransaction::ComputePriority`. -/
def computePriority (tx : CTransaction) (dPriorityInputs : Float) (nTxSize : Nat) : Float :=
  let nTxSize := calculateModifiedSize tx nTxSize
  if nTxSize = 0 then 0 else dPriorityInputs / Float.ofNat nTxSize

/-- `AllowFree`. -/
def allowFree (dPriority : Float) : Bool := decide (Float.ofInt (COIN * 720 / 250) < dPriority)

/-- What `prioritisetransaction` adds to the priority and the fee of transactions. -/
abbrev Deltas := UInt256 → Option (Float × Int)

/-- `CTxMemPool::ApplyDeltas`. -/
def applyDeltas (mapDeltas : Deltas) (hash : UInt256) (dPriorityDelta : Float) (nFeeDelta : Int) :
    Float × Int :=
  match mapDeltas hash with
  | none => (dPriorityDelta, nFeeDelta)
  | some deltas => (dPriorityDelta + deltas.1, int64 (nFeeDelta + deltas.2))

structure TxPriority where
  dPriority : Float
  feeRate : CFeeRate
  tx : CTransaction

/-- `TxPriorityCompare`: whether `a` has less priority than `b`. -/
def txPriorityCompare (byFee : Bool) (a b : TxPriority) : Bool :=
  if byFee then
    if a.feeRate = b.feeRate then decide (a.dPriority < b.dPriority)
    else decide (a.feeRate.nSatoshisPerK < b.feeRate.nSatoshisPerK)
  else
    if a.dPriority == b.dPriority then decide (a.feeRate.nSatoshisPerK < b.feeRate.nSatoshisPerK)
    else decide (a.dPriority < b.dPriority)

/-! ## Collecting -/

/-- A transaction that waits for those of `setDependsOn`. -/
structure COrphan where
  tx : CTransaction
  setDependsOn : Finset UInt256 := ∅
  feeRate : CFeeRate := ⟨0⟩
  dPriority : Float := 0

/-- `vOrphan`; `none` is freed memory. -/
abbrev Orphans := List (Option COrphan)

/-- The variables of the loop over the pool. -/
structure Collected where
  vecPriority : List TxPriority
  vOrphan : Orphans
  mapDependers : UInt256 → List Nat

/-- The variables of the loop over the inputs of a transaction. -/
structure InputScan where
  porphan : Option Nat
  dPriority : Float
  nTotalIn : Int
  vOrphan : Orphans
  mapDependers : UInt256 → List Nat

/-- The orphan at `porphan`, a new one for `tx` when that is null. -/
def InputScan.orphan (scan : InputScan) (tx : CTransaction) : Nat × Orphans :=
  match scan.porphan with
  | some porphan => (porphan, scan.vOrphan)
  | none => (scan.vOrphan.length, scan.vOrphan ++ [some { tx }])

/-- The transaction has to wait for the one with the given hash. -/
def InputScan.wait (scan : InputScan) (tx : CTransaction) (hash : UInt256) : InputScan :=
  let (porphan, vOrphan) := scan.orphan tx
  { scan with
    porphan := some porphan
    vOrphan := vOrphan.modify porphan fun orphan => orphan.map fun orphan =>
      { orphan with setDependsOn := insert hash orphan.setDependsOn }
    mapDependers := update scan.mapDependers hash (scan.mapDependers hash ++ [porphan]) }

/-- What the loop leaves when an input is missing. -/
def InputScan.missing (scan : InputScan) : InputScan :=
  match scan.porphan with
  | none => scan
  | some _ => { scan with vOrphan := scan.vOrphan.dropLast ++ [none] }

/-- Element `n` of `vout`. -/
def elementAt {α : Type} (vout : List α) (n : Nat) : Except Failure α :=
  match vout[n]? with
  | none => .error .assertion
  | some out => .ok out

section

variable (pool : CTxMemPool) (mapDeltas : Deltas) (nHeight : Nat)

/-- The loop over the inputs of a transaction; whether some input is missing. -/
def scanInputs (tx : CTransaction) (scan : InputScan) : List CTxIn → CoinsProg (Bool × InputScan)
  | [] => pure (false, scan)
  | txin :: vin => do
    let coins ← accessCoins txin.prevout.hash
    -- `HaveCoins`: a record without outputs is none
    match coins.filter fun coins => !coins.vout.isEmpty with
    | none =>
      match pool.mapTx.lookup txin.prevout.hash with
      | none => pure (true, scan.missing)
      | some parent => do
        let out ← Prog.lift (elementAt parent.tx.vout txin.prevout.n.toNat)
        let scan := scan.wait tx txin.prevout.hash
        scanInputs tx { scan with nTotalIn := int64 (scan.nTotalIn + out.nValue) } vin
    | some coins => do
      let out ← Prog.lift (elementAt coins.vout txin.prevout.n.toNat)
      let nValueIn := (out.getD .null).nValue
      let nConf : Int := (nHeight : Int) - coins.nHeight
      scanInputs tx { scan with
        nTotalIn := int64 (scan.nTotalIn + nValueIn)
        dPriority := scan.dPriority + Float.ofInt nValueIn * Float.ofInt nConf } vin

variable (env : Env)

/-- A transaction all of whose inputs have been found goes into the queue, or has to wait. -/
def Collected.enqueue (tx : CTransaction) (scan : InputScan) (vecPriority : List TxPriority)
    (nValueOut : Int) : Collected :=
  let nTxSize := tx.getSerializeSize
  let (dPriority, nTotalIn) := applyDeltas mapDeltas (tx.getHash env.hash)
    (computePriority tx scan.dPriority nTxSize) scan.nTotalIn
  let feeRate := CFeeRate.ofFee (int64 (nTotalIn - nValueOut)) nTxSize
  match scan.porphan with
  | some porphan =>
    { vecPriority
      vOrphan := scan.vOrphan.modify porphan fun orphan => orphan.map fun orphan =>
        { orphan with dPriority, feeRate }
      mapDependers := scan.mapDependers }
  | none => ⟨vecPriority ++ [⟨dPriority, feeRate, tx⟩], scan.vOrphan, scan.mapDependers⟩

/-- One iteration of the loop over the pool. -/
def collectTx (nTime : Int) (tx : CTransaction) (collected : Collected) : CoinsProg Collected :=
  if tx.isCoinBase || !isFinalTx tx nHeight nTime then pure collected
  else do
    let (fMissingInputs, scan) ← scanInputs pool nHeight tx
      ⟨none, 0, 0, collected.vOrphan, collected.mapDependers⟩ tx.vin
    if fMissingInputs then pure ⟨collected.vecPriority, scan.vOrphan, scan.mapDependers⟩
    else do
      let nValueOut ← Prog.lift (valueOut tx)
      pure (Collected.enqueue mapDeltas env tx scan collected.vecPriority nValueOut)

/-- The loop over the pool. -/
def collectTxs (nTime : Int) : List CTransaction → Collected → CoinsProg Collected
  | [], collected => pure collected
  | tx :: txs, collected => do
    let collected ← collectTx pool mapDeltas nHeight env nTime tx collected
    collectTxs nTime txs collected

end

/-! ## Selecting -/

/-- The arguments that limit a block; `GetArg` returns an `int64_t`. -/
structure MinerArgs where
  blockmaxsize : Int := 750000
  blockprioritysize : Int := 50000
  blockminsize : Int := 0

namespace MinerArgs

variable (args : MinerArgs)

def nBlockMaxSize : Nat := max 1000 (min (MAX_BLOCK_SIZE - 1000) (args.blockmaxsize % 2 ^ 32).toNat)

def nBlockPrioritySize : Nat := min args.nBlockMaxSize (args.blockprioritysize % 2 ^ 32).toNat

def nBlockMinSize : Nat := min args.nBlockMaxSize (args.blockminsize % 2 ^ 32).toNat

end MinerArgs

/-- The variables of the loop over the queue; `vtx`, `vTxFees` and `vTxSigOps` without what is there
for the coinbase. -/
structure Selection where
  vtx : List CTransaction
  vTxFees : List Int
  vTxSigOps : List Nat
  nBlockSize : Nat
  nBlockSigOps : Nat
  nFees : Int
  fSortedByFee : Bool
  vecPriority : List TxPriority
  vOrphan : Orphans

def COrphan.waits (orphan : COrphan) : Bool := decide (orphan.setDependsOn ≠ ∅)

/-- The number of orphans that wait. -/
def Orphans.waiting (vOrphan : Orphans) : Nat := vOrphan.countP fun orphan => orphan.any COrphan.waits

theorem Orphans.waiting_set {vOrphan : Orphans} {porphan : Nat} {orphan : COrphan} (orphan' : COrphan)
    (h : vOrphan[porphan]? = some (some orphan)) (hwaits : orphan.waits = true) :
    waiting (vOrphan.set porphan (some orphan')) + 1 =
      waiting vOrphan + if orphan'.waits then 1 else 0 := by
  obtain ⟨hlt, hget⟩ := List.getElem?_eq_some_iff.mp h
  have hpos : 0 < vOrphan.countP fun orphan => orphan.any COrphan.waits :=
    List.countP_pos_iff.mpr ⟨_, List.getElem_mem hlt, by rw [hget]; exact hwaits⟩
  rw [waiting, List.countP_set hlt, hget, Option.any_some, Option.any_some, hwaits, if_pos rfl, waiting]
  omega

/-- One iteration of the loop over the orphans that depend on the transaction just added. -/
def releaseOrphan (byFee : Bool) (hash : UInt256) (porphan : Nat)
    (queue : List TxPriority × Orphans) : Except Failure (List TxPriority × Orphans) :=
  match queue.2[porphan]?.join with
  | none => .error .assertion
  | some orphan =>
    if orphan.setDependsOn = ∅ then .ok queue
    else
      let orphan := { orphan with setDependsOn := orphan.setDependsOn.erase hash }
      let vOrphan := queue.2.set porphan (some orphan)
      if orphan.setDependsOn = ∅ then
        .ok (pushHeap (txPriorityCompare byFee) queue.1 ⟨orphan.dPriority, orphan.feeRate, orphan.tx⟩,
          vOrphan)
      else .ok (queue.1, vOrphan)

/-- The loop over the orphans that depend on the transaction just added. -/
def releaseOrphans (byFee : Bool) (hash : UInt256) :
    List Nat → List TxPriority × Orphans → Except Failure (List TxPriority × Orphans)
  | [], queue => .ok queue
  | porphan :: porphans, queue => do
    let queue ← releaseOrphan byFee hash porphan queue
    releaseOrphans byFee hash porphans queue

/-- An orphan that is released waits no more. -/
theorem releaseOrphan_le {byFee : Bool} {hash : UInt256} {porphan : Nat}
    {queue queue' : List TxPriority × Orphans}
    (h : releaseOrphan byFee hash porphan queue = .ok queue') :
    queue'.1.length + queue'.2.waiting ≤ queue.1.length + queue.2.waiting := by
  unfold releaseOrphan at h
  split at h
  · cases h
  · rename_i orphan horphan
    have hset := Orphans.waiting_set { orphan with setDependsOn := orphan.setDependsOn.erase hash }
      (Option.join_eq_some_iff.mp horphan)
    dsimp only at h
    split_ifs at h with hempty hnow
    · cases h
      exact le_refl _
    · cases h
      have hwaiting := hset (decide_eq_true hempty)
      rw [COrphan.waits, decide_eq_false (not_not.mpr hnow)] at hwaiting
      have hlen := (Framework.Heap.pushHeap_perm (txPriorityCompare byFee) queue.1
        ⟨orphan.dPriority, orphan.feeRate, orphan.tx⟩).length_eq
      simp only [Bool.false_eq_true, ↓reduceIte, List.length_cons] at hwaiting hlen ⊢
      omega
    · cases h
      have hwaiting := hset (decide_eq_true hempty)
      rw [COrphan.waits, decide_eq_true hnow] at hwaiting
      simp only [↓reduceIte] at hwaiting ⊢
      omega

theorem releaseOrphans_le {byFee : Bool} {hash : UInt256} {porphans : List Nat}
    {queue queue' : List TxPriority × Orphans}
    (h : releaseOrphans byFee hash porphans queue = .ok queue') :
    queue'.1.length + queue'.2.waiting ≤ queue.1.length + queue.2.waiting := by
  induction porphans generalizing queue with
  | nil =>
    cases h
    exact le_refl _
  | cons porphan porphans ih =>
    rw [releaseOrphans] at h
    cases hfirst : releaseOrphan byFee hash porphan queue with
    | error e =>
      rw [hfirst] at h
      cases h
    | ok queue₁ =>
      rw [hfirst] at h
      exact (ih h).trans (releaseOrphan_le hfirst)

section

variable (args : MinerArgs) (minRelayTxFee : CFeeRate) (mapDeltas : Deltas) (env : Env) (nHeight : Nat)

/-- Whether a transaction is skipped for its size, its signature operations or, being free, because
the block has its minimum size. -/
def Selection.skips (sel : Selection) (top : TxPriority) : Bool :=
  let nTxSize := top.tx.getSerializeSize
  let (dPriorityDelta, nFeeDelta) := applyDeltas mapDeltas (top.tx.getHash env.hash) 0 0
  decide (args.nBlockMaxSize ≤ sel.nBlockSize + nTxSize) ||
    decide (MAX_BLOCK_SIGOPS ≤ sel.nBlockSigOps + getLegacySigOpCount top.tx) ||
    (sel.fSortedByFee && decide (dPriorityDelta ≤ 0) && decide (nFeeDelta ≤ 0) &&
      decide (top.feeRate.nSatoshisPerK < minRelayTxFee.nSatoshisPerK) &&
      decide (args.nBlockMinSize ≤ sel.nBlockSize + nTxSize))

/-- Past the priority size, or out of high priorities, the queue is sorted by fee. -/
def Selection.sort (sel : Selection) (top : TxPriority) : Selection :=
  if !sel.fSortedByFee && (decide (args.nBlockPrioritySize ≤ sel.nBlockSize + top.tx.getSerializeSize) ||
      !allowFree top.dPriority) then
    { sel with
      fSortedByFee := true
      vecPriority := makeHeap (txPriorityCompare true) sel.vecPriority }
  else sel

/-- Whether `CheckInputs` returns true. -/
def checkInputsAccepts (tx : CTransaction) : CoinsProg Bool :=
  Prog.rescue (fun e => match e with
    | .invalid .. => .ok false
    | e => .error e) (do
    let _ ← checkInputs env tx true false
    return true)

/-- What the view has to say of a transaction: its fee and its signature operations, if it is spent
into the view. -/
def spendTx (tx : CTransaction) (nBlockSigOps : Nat) : CoinsProg (Option (Int × Nat)) := do
  let fHave ← haveInputs tx
  if !fHave then return none
  else
    let nValueIn ← getValueIn tx
    let nValueOut ← Prog.lift (valueOut tx)
    let nMore ← getP2SHSigOpCount tx
    let nTxSigOps := getLegacySigOpCount tx + nMore
    if MAX_BLOCK_SIGOPS ≤ nBlockSigOps + nTxSigOps then return none
    else
      let fAccepts ← checkInputsAccepts env tx
      if !fAccepts then return none
      else
        let _ ← updateCoins env tx nHeight
        return some (int64 (nValueIn - nValueOut), nTxSigOps)

/-- A transaction is added to the block. -/
def Selection.add (sel : Selection) (tx : CTransaction) (nTxFees : Int) (nTxSigOps : Nat)
    (queue : List TxPriority × Orphans) : Selection :=
  { sel with
    vtx := sel.vtx ++ [tx]
    vTxFees := sel.vTxFees ++ [nTxFees]
    vTxSigOps := sel.vTxSigOps ++ [nTxSigOps]
    nBlockSize := sel.nBlockSize + tx.getSerializeSize
    nBlockSigOps := sel.nBlockSigOps + nTxSigOps
    nFees := int64 (sel.nFees + nTxFees)
    vecPriority := queue.1
    vOrphan := queue.2 }

/-- The selection without the first of the queue. -/
def Selection.pop (sel : Selection) (vecPriority : List TxPriority) : Selection :=
  { sel with vecPriority := popHeap (txPriorityCompare sel.fSortedByFee) vecPriority }

/-- The number of transactions that are in the queue or wait. -/
def Selection.remaining (sel : Selection) : Nat := sel.vecPriority.length + sel.vOrphan.waiting

theorem Selection.remaining_pop {sel : Selection} {top : TxPriority} {rest : List TxPriority}
    (h : sel.vecPriority = top :: rest) : (sel.pop rest).remaining + 1 = sel.remaining := by
  have hpop : (sel.pop rest).vecPriority.length = rest.length :=
    (Framework.Heap.popHeap_perm (txPriorityCompare sel.fSortedByFee) rest).length_eq
  rw [remaining, remaining, hpop, h, List.length_cons, Nat.add_right_comm]
  rfl

theorem Selection.remaining_sort (sel : Selection) (top : TxPriority) :
    (sel.sort args top).remaining = sel.remaining := by
  unfold Selection.sort
  split_ifs
  · exact congrArg (· + sel.vOrphan.waiting) (Framework.Heap.makeHeap_perm _ _).length_eq
  · rfl

/-- The loop over the queue. -/
def selectTxs (mapDependers : UInt256 → List Nat) (sel : Selection) : CoinsProg Selection :=
  match _hqueue : sel.vecPriority with
  | [] => pure sel
  | top :: rest =>
    let popped := sel.pop rest
    if popped.skips args minRelayTxFee mapDeltas env top then selectTxs mapDependers popped
    else
      let sorted := popped.sort args top
      spendTx env nHeight top.tx sorted.nBlockSigOps >>= fun
        | none => selectTxs mapDependers sorted
        | some (nTxFees, nTxSigOps) =>
          let hash := top.tx.getHash env.hash
          match _hrelease : releaseOrphans sorted.fSortedByFee hash (mapDependers hash)
              (sorted.vecPriority, sorted.vOrphan) with
          | .error e => .fail e
          | .ok queue => selectTxs mapDependers (sorted.add top.tx nTxFees nTxSigOps queue)
termination_by sel.remaining
decreasing_by
  · have hpop := Selection.remaining_pop _hqueue
    show (sel.pop rest).remaining < _
    omega
  · have hpop := Selection.remaining_pop _hqueue
    have hsort := Selection.remaining_sort args (sel.pop rest) top
    show ((sel.pop rest).sort args top).remaining < _
    omega
  · have hpop := Selection.remaining_pop _hqueue
    have hsort := Selection.remaining_sort args (sel.pop rest) top
    have hle : queue.1.length + queue.2.waiting ≤ ((sel.pop rest).sort args top).remaining :=
      releaseOrphans_le _hrelease
    show queue.1.length + queue.2.waiting < _
    omega

/-- The selection at the beginning of the loop. -/
def Collected.selection (collected : Collected) : Selection :=
  let fSortedByFee := args.nBlockPrioritySize == 0
  { vtx := []
    vTxFees := []
    vTxSigOps := []
    nBlockSize := 1000
    nBlockSigOps := 100
    nFees := 0
    fSortedByFee
    vecPriority := makeHeap (txPriorityCompare fSortedByFee) collected.vecPriority
    vOrphan := collected.vOrphan }

/-- The two loops, on the pool and on the queue. -/
def collectAndSelect (pool : CTxMemPool) (nTime : Int) : CoinsProg Selection := do
  let collected ← collectTxs pool mapDeltas nHeight env nTime
    (pool.entries.map fun entry => entry.2.tx) ⟨[], [], fun _ => []⟩
  selectTxs args minRelayTxFee mapDeltas env nHeight collected.mapDependers (collected.selection args)

end

/-! ## The template -/

structure CBlockTemplate where
  block : CBlock
  vTxFees : List Int
  vTxSigOps : List Int

/-- What `CreateNewBlock` takes from the tip of the chain and the chain parameters. -/
structure MinerTip where
  hashBlock : UInt256
  nHeight : Nat
  nVersion : Int := 3
  /-- `GetMedianTimePast`. -/
  medianTimePast : Int
  /-- `GetNextWorkRequired` for a block with the given time. -/
  getNextWorkRequired : UInt32 → UInt32
  /-- `ContextualCheckBlockHeader` and `ContextualCheckBlock`. -/
  contextualCheck : CBlock → Bool

/-- The coinbase of a template. -/
def coinbaseTx (scriptPubKeyIn : CScript) (nHeight : Nat) (nValue : Int) : CTransaction :=
  ⟨1, [⟨⟨0, 0xFFFFFFFF⟩, pushInt nHeight ++ [0x00], 0xFFFFFFFF⟩], [⟨nValue, scriptPubKeyIn⟩], 0⟩

section

variable (env : Env) (args : MinerArgs) (minRelayTxFee : CFeeRate) (mapDeltas : Deltas) (tip : MinerTip)
  (scriptPubKeyIn : CScript)

/-- The template of a selection. -/
def Selection.template (sel : Selection) : CBlockTemplate :=
  let nHeight := tip.nHeight + 1
  let coinbase := coinbaseTx scriptPubKeyIn nHeight (int64 (sel.nFees + getBlockSubsidy env nHeight))
  let nTime := UInt32.ofInt (max (tip.medianTimePast + 1) env.adjustedTime)
  { block := ⟨⟨tip.nVersion, tip.hashBlock, 0, nTime, tip.getNextWorkRequired nTime, 0⟩,
      coinbase :: sel.vtx⟩
    vTxFees := int64 (-sel.nFees) :: sel.vTxFees
    vTxSigOps := getLegacySigOpCount coinbase :: sel.vTxSigOps.map Nat.cast }

/-- `TestBlockValidity` on the tip, without proof of work and Merkle root. -/
def testBlockValidity (pcoinsTip : Framework.Map UInt256 CCoins UInt256) (block : CBlock) :
    Except Failure Unit := do
  require (tip.contextualCheck block) .error
  checkBlock env block false false
  let _ ← ((connectBlock env block ⟨0, some tip.hashBlock, tip.nHeight + 1⟩ true).run
    (Framework.Map.impl .empty) pcoinsTip).1
  return ()

/-- `CreateNewBlock`; where it throws, an error. -/
def createNewBlock (pool : CTxMemPool) (pcoinsTip : Framework.Map UInt256 CCoins UInt256) :
    Except Failure CBlockTemplate := do
  let nTime : Int := (UInt32.ofInt env.adjustedTime).toNat
  let sel ← ((collectAndSelect args minRelayTxFee mapDeltas env (tip.nHeight + 1) pool nTime).run
    (Framework.Map.impl .empty) pcoinsTip).1
  let template := sel.template env tip scriptPubKeyIn
  testBlockValidity env tip pcoinsTip template.block
  return template

end

end GC
