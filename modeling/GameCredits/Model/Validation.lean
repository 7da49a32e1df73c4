import GameCredits.Framework.Prog
import GameCredits.Model.Coins
import GameCredits.Model.Merkle
import GameCredits.Model.Undo

/-!
# Block validation (main.cpp)

`CheckTransaction`, `CheckBlock`, `CheckInputs`, `UpdateCoins`, `ConnectBlock` and
`DisconnectBlock`. The functions that use a `CCoinsViewCache` are programs over a store of coin
records (`CoinsProg`), so that they run on any implementation of one; `AccessCoins` is a read,
`ModifyCoins` an edit, and the best block of the view is the tag of the store.

Hashing, proof of work, script verification, the clock, the block index and the chain parameters
are parameters (`Env`).
-/

namespace GC

open Framework (Bytes Prog)

def MAX_BLOCK_SIZE : Nat := 1000000
def MAX_BLOCK_SIGOPS : Nat := MAX_BLOCK_SIZE / 50
def COINBASE_MATURITY : Int := 100

def REJECT_INVALID : UInt8 := 0x10

/-- How a validation function fails: with the `CValidationState` of an invalid block, with an error
that leaves the state alone, or in an assertion. -/
inductive Failure where
  | invalid (nDoS : Nat) (chRejectCode : UInt8) (strRejectReason : String)
      (corruptionPossible : Bool)
  | error
  | assertion
  deriving DecidableEq, Repr

/-- `CValidationState::DoS` with the code `REJECT_INVALID`. -/
def dos (level : Nat) (strRejectReason : String) (corruption : Bool := false) : Failure :=
  .invalid level REJECT_INVALID strRejectReason corruption

/-- What validation takes from the rest of the program. -/
structure Env where
  /-- Double SHA-256. -/
  hash : Bytes → UInt256
  ops : PubKeyOps
  /-- `CheckProofOfWork` on the header's `GetPoWHash` and `nBits`. -/
  checkProofOfWork : CBlockHeader → Bool
  /-- `GetAdjustedTime`. -/
  adjustedTime : Int
  /-- `VerifyScript` with the flag `SCRIPT_VERIFY_P2SH` for input `nIn` of a transaction; the text
  of the error when it fails. -/
  verifyScript : (scriptSig scriptPubKey : CScript) → CTransaction → (nIn : Nat) → Option String
  hashGenesisBlock : UInt256
  nSubsidyHalvingInterval : Nat
  /-- The subsidy shifted by 64 or more, which the language leaves undefined. -/
  undefinedShift : Nat → Int64
  fCheckpointsEnabled : Bool
  /-- `Checkpoints::GetTotalBlocksEstimate`. -/
  totalBlocksEstimate : Nat
  nScriptCheckThreads : Nat
  /-- The height of the block with a hash, through `mapBlockIndex`. -/
  heightOf : UInt256 → Nat

/-! ## Checks without context -/

/-- The loop of `CheckTransaction` over the outputs. -/
def checkTxOuts (nValueOut : Int) : List CTxOut → Except Failure Unit
  | [] => .ok ()
  | txout :: vout =>
    if txout.nValue < 0 then .error (dos 100 "bad-txns-vout-negative")
    else if MAX_MONEY < txout.nValue then .error (dos 100 "bad-txns-vout-toolarge")
    else
      let nValueOut := int64 (nValueOut + txout.nValue)
      if !moneyRange nValueOut then .error (dos 100 "bad-txns-txouttotal-toolarge")
      else checkTxOuts nValueOut vout

/-- The loop of `CheckTransaction` that looks for duplicate inputs. -/
def checkDuplicateInputs (vInOutPoints : List COutPoint) : List CTxIn → Except Failure Unit
  | [] => .ok ()
  | txin :: vin =>
    if txin.prevout ∈ vInOutPoints then .error (dos 100 "bad-txns-inputs-duplicate")
    else checkDuplicateInputs (txin.prevout :: vInOutPoints) vin

/-- Fails unless the condition holds. -/
def require (b : Bool) (e : Failure) : Except Failure Unit := if b then .ok () else .error e

/-- `CheckTransaction`. The size is compared as it is: as an `unsigned int` it is another one from
`2 ^ 32` bytes on, which no message or file holds. -/
def checkTransaction (tx : CTransaction) : Except Failure Unit := do
  require (!tx.vin.isEmpty) (dos 10 "bad-txns-vin-empty")
  require (!tx.vout.isEmpty) (dos 10 "bad-txns-vout-empty")
  require (tx.bytes.length ≤ MAX_BLOCK_SIZE) (dos 100 "bad-txns-oversize")
  checkTxOuts 0 tx.vout
  checkDuplicateInputs [] tx.vin
  if tx.isCoinBase then
    let scriptSig := (tx.vin.map CTxIn.scriptSig).headD []
    require (2 ≤ scriptSig.length && scriptSig.length ≤ 100) (dos 100 "bad-cb-length")
  else
    require (tx.vin.all fun txin => !txin.prevout.isNull) (dos 10 "bad-txns-prevout-null")

section

variable (env : Env)

/-- `CheckBlockHeader`. -/
def checkBlockHeader (block : CBlockHeader) (fCheckPOW : Bool) : Except Failure Unit := do
  require (!fCheckPOW || env.checkProofOfWork block) (dos 50 "high-hash")
  require (block.nTime.toNat ≤ env.adjustedTime + 2 * 60 * 60) (dos 0 "time-too-new")

/-- The check of the Merkle root in `CheckBlock`. An `int` that overflows in `BuildMerkleTree` counts as
a failed assertion. -/
def checkMerkleRoot (block : CBlock) (fCheckMerkleRoot : Bool) : Except Failure Unit :=
  if fCheckMerkleRoot then
    match block.buildMerkleTree env.hash with
    | none => .error .assertion
    | some (vMerkleTree, mutated) => do
      require (block.hashMerkleRoot == merkleRoot vMerkleTree) (dos 100 "bad-txnmrklroot" true)
      require (!mutated) (dos 100 "bad-txns-duplicate" true)
  else .ok ()

/-- `CheckBlock`; the size as in `checkTransaction`. -/
def checkBlock (block : CBlock) (fCheckPOW fCheckMerkleRoot : Bool) : Except Failure Unit := do
  checkBlockHeader env block.toCBlockHeader fCheckPOW
  checkMerkleRoot env block fCheckMerkleRoot
  require (!block.vtx.isEmpty && block.vtx.length ≤ MAX_BLOCK_SIZE &&
    block.bytes.length ≤ MAX_BLOCK_SIZE) (dos 100 "bad-blk-length")
  require ((block.vtx.head?.map CTransaction.isCoinBase).getD false) (dos 100 "bad-cb-missing")
  require (block.vtx.tail.all fun tx => !tx.isCoinBase) (dos 100 "bad-cb-multiple")
  block.vtx.forM checkTransaction
  require ((block.vtx.map getLegacySigOpCount).sum % 2 ^ 32 ≤ MAX_BLOCK_SIGOPS)
    (dos 100 "bad-blk-sigops" true)

/-- `GetBlockSubsidy`. -/
def getBlockSubsidy (nHeight : Nat) : Int :=
  let halvings := nHeight / env.nSubsidyHalvingInterval
  if halvings < 64 then (50 * COIN) >>> halvings else (env.undefinedShift halvings).toInt

end

/-! ## Programs on a view -/

/-- Programs on a coins view. -/
abbrev CoinsProg := Prog UInt256 CCoins UInt256 Failure

/-- `CCoinsViewCache::AccessCoins`. -/
def accessCoins (txid : UInt256) : CoinsProg (Option CCoins) := .get txid .ret

/-- `CCoinsViewCache::ModifyCoins`, the modification `f` and the modifier's destructor; returns the
record as it was before. -/
def modifyCoins (txid : UInt256) (f : CCoins → CCoins) : CoinsProg CCoins :=
  .edit txid (fun coins => (f coins).cleanup) .ret

/-- `CCoinsViewCache::GetBestBlock`. -/
def getBestBlock : CoinsProg UInt256 := .getTag .ret

/-- `CCoinsViewCache::SetBestBlock`. -/
def setBestBlock (hashBlock : UInt256) : CoinsProg Unit := .setTag hashBlock (.ret ())

/-- Element `nPos` of `coins->vout`, read where `HaveInputs` has found it available. -/
def outputAt (coins : Option CCoins) (nPos : Nat) : Except Failure CTxOut :=
  match coins.bind (·.output? nPos) with
  | some out => .ok out
  | none => .error .assertion

/-- `CCoinsViewCache::GetOutputFor`, which asserts that the output is available. -/
def getOutputFor (input : CTxIn) : CoinsProg CTxOut := do
  let coins ← accessCoins input.prevout.hash
  Prog.lift (outputAt coins input.prevout.n.toNat)

/-- The loop of `CCoinsViewCache::GetValueIn`. -/
def valueInFrom (nResult : Int) : List CTxIn → CoinsProg Int
  | [] => pure nResult
  | txin :: vin => do
    let out ← getOutputFor txin
    valueInFrom (int64 (nResult + out.nValue)) vin

/-- `CCoinsViewCache::GetValueIn`. -/
def getValueIn (tx : CTransaction) : CoinsProg Int :=
  if tx.isCoinBase then pure 0 else valueInFrom 0 tx.vin

/-- The loop of `CCoinsViewCache::HaveInputs`. -/
def haveInputsFrom : List CTxIn → CoinsProg Bool
  | [] => pure true
  | txin :: vin => do
    let coins ← accessCoins txin.prevout.hash
    if (coins.map (·.isAvailable txin.prevout.n.toNat)).getD false then haveInputsFrom vin
    else pure false

/-- `CCoinsViewCache::HaveInputs`. -/
def haveInputs (tx : CTransaction) : CoinsProg Bool :=
  if tx.isCoinBase then pure true else haveInputsFrom tx.vin

/-- The loop of `GetP2SHSigOpCount`. -/
def p2shSigOpsFrom (nSigOps : Nat) : List CTxIn → CoinsProg Nat
  | [] => pure nSigOps
  | txin :: vin => do
    let prevout ← getOutputFor txin
    let nMore :=
      if isPayToScriptHash prevout.scriptPubKey then
        getP2SHScriptSigOpCount prevout.scriptPubKey txin.scriptSig
      else 0
    p2shSigOpsFrom ((nSigOps + nMore) % 2 ^ 32) vin

/-- `GetP2SHSigOpCount`. -/
def getP2SHSigOpCount (tx : CTransaction) : CoinsProg Nat :=
  if tx.isCoinBase then pure 0 else p2shSigOpsFrom 0 tx.vin

/-- `GetValueOut` where it is called without a handler. -/
def valueOut (tx : CTransaction) : Except Failure Int :=
  match tx.getValueOut with
  | some nValueOut => .ok nValueOut
  | none => .error .error

section

variable (env : Env)

/-- The loop of `CheckInputs` over the input values. -/
def checkInputValues (nSpendHeight : Int) (nValueIn : Int) : List CTxIn → CoinsProg Int
  | [] => pure nValueIn
  | txin :: vin => do
    let coins ← accessCoins txin.prevout.hash
    let out ← Prog.lift (outputAt coins txin.prevout.n.toNat)
    Prog.check (!((coins.map fun coins =>
        coins.fCoinBase && decide (nSpendHeight - coins.nHeight < COINBASE_MATURITY)).getD false))
      (dos 0 "bad-txns-premature-spend-of-coinbase")
    let nValueIn := int64 (nValueIn + out.nValue)
    Prog.check (moneyRange out.nValue && moneyRange nValueIn)
      (dos 100 "bad-txns-inputvalues-outofrange")
    checkInputValues nSpendHeight nValueIn vin

/-- The loop of `CheckInputs` over the scripts, from input `i`. With `pvChecks` the outcomes are
collected, else the first that fails ends the loop. -/
def checkInputScripts (tx : CTransaction) (pvChecks : Bool) (i : Nat) :
    List CTxIn → CoinsProg (List Bool)
  | [] => pure []
  | txin :: vin => do
    let coins ← accessCoins txin.prevout.hash
    let out ← Prog.lift (outputAt coins txin.prevout.n.toNat)
    let error := env.verifyScript txin.scriptSig out.scriptPubKey tx i
    Prog.check (pvChecks || error.isNone)
      (dos 100 ("mandatory-script-verify-flag-failed (" ++ error.getD "" ++ ")"))
    let rest ← checkInputScripts tx pvChecks (i + 1) vin
    return error.isNone :: rest

/-- `CheckInputs` with the flag `SCRIPT_VERIFY_P2SH`, of a transaction that is not a coinbase; the
outcomes of the script checks. -/
def checkInputs (tx : CTransaction) (fScriptChecks pvChecks : Bool) : CoinsProg (List Bool) := do
  let fHave ← haveInputs tx
  Prog.check fHave (.invalid 0 0 "" false)
  let hashBest ← getBestBlock
  let nValueIn ← checkInputValues (env.heightOf hashBest + 1) 0 tx.vin
  let nValueOut ← Prog.lift (valueOut tx)
  Prog.check (nValueOut ≤ nValueIn) (dos 100 "bad-txns-in-belowout")
  let nTxFee := int64 (nValueIn - nValueOut)
  Prog.check (0 ≤ nTxFee) (dos 100 "bad-txns-fee-negative")
  Prog.check (moneyRange nTxFee) (dos 100 "bad-txns-fee-outofrange")
  if fScriptChecks then checkInputScripts env tx pvChecks 0 tx.vin else pure []

/-- The undo data of spending an output, from the record before the spend. -/
def spendUndo (coins : CCoins) (nPos : Nat) (out : CTxOut) : CTxInUndo :=
  if (coins.spend nPos).vout.isEmpty then ⟨out, coins.fCoinBase, coins.nHeight, coins.nVersion⟩
  else .ofTxOut out

/-- The loop of `UpdateCoins` over the inputs. -/
def spendInputsFrom : List CTxIn → CoinsProg (List CTxInUndo)
  | [] => pure []
  | txin :: vin => do
    let nPos := txin.prevout.n.toNat
    let coins ← modifyCoins txin.prevout.hash fun coins => coins.spend nPos
    -- the assertion that the output was there
    let out ← Prog.lift (outputAt (some coins) nPos)
    let vprevout ← spendInputsFrom vin
    return spendUndo coins nPos out :: vprevout

/-- The part of `UpdateCoins` that marks inputs spent. -/
def spendInputs (tx : CTransaction) : CoinsProg (List CTxInUndo) :=
  if tx.isCoinBase then pure [] else spendInputsFrom tx.vin

/-- `UpdateCoins`. -/
def updateCoins (tx : CTransaction) (nHeight : Nat) : CoinsProg CTxUndo := do
  let vprevout ← spendInputs tx
  let _ ← modifyCoins (tx.getHash env.hash) fun _ => .fromTx tx nHeight
  return ⟨vprevout⟩

/-- What `ConnectBlock` and `DisconnectBlock` read of a `CBlockIndex`: its hash, that of `pprev`,
and its height. -/
structure BlockRef where
  hashBlock : UInt256
  hashPrev : Option UInt256
  nHeight : Nat
  deriving DecidableEq, Repr

/-- The loop of `ConnectBlock` that looks for transactions not entirely spent (BIP30). -/
def checkOverwrite : List CTransaction → CoinsProg Unit
  | [] => pure ()
  | tx :: vtx => do
    let coins ← accessCoins (tx.getHash env.hash)
    Prog.check ((coins.map CCoins.isPruned).getD true) (dos 100 "bad-txns-BIP30")
    checkOverwrite vtx

/-- The variables of the loop of `ConnectBlock`. `fAllOk` is the outcome of the script checks
queued so far, `vtxundo` the undo data with the last first. The size of the block keeps `nSigOps` far
below the bound of its type. -/
structure ConnectState where
  nFees : Int
  nSigOps : Nat
  fAllOk : Bool
  vtxundo : List CTxUndo

def ConnectState.init : ConnectState := ⟨0, 0, true, []⟩

/-- The part of one iteration for a transaction that is not a coinbase: checks its inputs. -/
def checkSpends (fScriptChecks : Bool) (tx : CTransaction) (st : ConnectState) :
    CoinsProg ConnectState := do
  let fHave ← haveInputs tx
  Prog.check fHave (dos 100 "bad-txns-inputs-missingorspent")
  let nMore ← getP2SHSigOpCount tx
  let nSigOps := st.nSigOps + nMore
  Prog.check (nSigOps ≤ MAX_BLOCK_SIGOPS) (dos 100 "bad-blk-sigops")
  let nValueIn ← getValueIn tx
  let nValueOut ← Prog.lift (valueOut tx)
  let nFees := int64 (st.nFees + int64 (nValueIn - nValueOut))
  let vChecks ← checkInputs env tx fScriptChecks (env.nScriptCheckThreads ≠ 0)
  return { st with nFees, nSigOps, fAllOk := st.fAllOk && vChecks.all id }

/-- `checkSpends` unless the transaction is a coinbase. -/
def connectInputs (fScriptChecks : Bool) (tx : CTransaction) (st : ConnectState) :
    CoinsProg ConnectState :=
  if tx.isCoinBase then pure st else checkSpends env fScriptChecks tx st

/-- One iteration of the loop of `ConnectBlock`; `first` for transaction 0. -/
def connectTx (fScriptChecks : Bool) (nHeight : Nat) (first : Bool) (tx : CTransaction)
    (st : ConnectState) : CoinsProg ConnectState := do
  let nSigOps := st.nSigOps + getLegacySigOpCount tx
  Prog.check (nSigOps ≤ MAX_BLOCK_SIGOPS) (dos 100 "bad-blk-sigops")
  let st ← connectInputs env fScriptChecks tx { st with nSigOps }
  let txundo ← updateCoins env tx nHeight
  return { st with vtxundo := if first then st.vtxundo else txundo :: st.vtxundo }

/-- The loop of `ConnectBlock`. -/
def connectTxs (fScriptChecks : Bool) (nHeight : Nat) (first : Bool) :
    List CTransaction → ConnectState → CoinsProg ConnectState
  | [], st => pure st
  | tx :: vtx, st => do
    let st ← connectTx env fScriptChecks nHeight first tx st
    connectTxs fScriptChecks nHeight false vtx st

/-- `fScriptChecks`. -/
def scriptChecks (pindex : BlockRef) : Bool :=
  !env.fCheckpointsEnabled || decide (env.totalBlocksEstimate ≤ pindex.nHeight)

/-- The step to the new best block, which a mere check leaves out. -/
def finishConnect (pindex : BlockRef) (fJustCheck : Bool) : CoinsProg Unit :=
  if fJustCheck then pure () else setBestBlock pindex.hashBlock

/-- The transactions of a block that is not the genesis block; the undo data. -/
def connectTransactions (block : CBlock) (pindex : BlockRef) : CoinsProg CBlockUndo := do
  checkOverwrite env block.vtx
  let st ← connectTxs env (scriptChecks env pindex) pindex.nHeight true block.vtx .init
  let blockReward := int64 (st.nFees + getBlockSubsidy env pindex.nHeight)
  let nValueOut ← Prog.lift ((block.vtx.head?.map valueOut).getD (.error .assertion))
  Prog.check (nValueOut ≤ blockReward) (dos 100 "bad-cb-amount")
  Prog.check st.fAllOk (.invalid 100 0 "" false)
  return ⟨st.vtxundo.reverse⟩

/-- `ConnectBlock` before the step to the new best block. -/
def connectChecked (block : CBlock) (pindex : BlockRef) (fJustCheck : Bool) :
    CoinsProg CBlockUndo := do
  Prog.lift (checkBlock env block (!fJustCheck) (!fJustCheck))
  let hashBest ← getBestBlock
  Prog.check (pindex.hashPrev.getD 0 == hashBest) .assertion
  if block.getHash env.hash = env.hashGenesisBlock then pure ⟨[]⟩
  else connectTransactions env block pindex

/-- `ConnectBlock`, but for the writing of undo data and index, which depend on the view no
further; the undo data to write. -/
def connectBlock (block : CBlock) (pindex : BlockRef) (fJustCheck : Bool) :
    CoinsProg CBlockUndo := do
  let blockundo ← connectChecked env block pindex fJustCheck
  finishConnect pindex fJustCheck
  return blockundo

/-! ## Disconnecting -/

/-- What `ApplyTxInUndo` makes of a record. (`out.n + 1` overflows at the largest `out.n`, where the
assignment after it is undefined unless `vout` is that long already.) -/
def undoSpend (undo : CTxInUndo) (nPos : UInt32) (coins : CCoins) : CCoins :=
  let coins :=
    if undo.nHeight ≠ 0 then ⟨undo.fCoinBase, [], undo.nHeight, undo.nVersion⟩ else coins
  let coins := coins.grow (nPos.toNat + 1)
  { coins with vout := coins.vout.set nPos.toNat undo.txout.unlessNull }

/-- What `ApplyTxInUndo` returns, from the record before. -/
def undoSpendClean (undo : CTxInUndo) (nPos : UInt32) (coins : CCoins) : Bool :=
  if undo.nHeight ≠ 0 then coins.isPruned
  else !coins.isPruned && !coins.isAvailable nPos.toNat

/-- `ApplyTxInUndo`. -/
def applyTxInUndo (undo : CTxInUndo) (out : COutPoint) : CoinsProg Bool := do
  let coins ← modifyCoins out.hash (undoSpend undo out.n)
  return undoSpendClean undo out.n coins

/-- The loop of `DisconnectBlock` over the inputs of one transaction, the last first. -/
def applyTxUndo : List (CTxIn × CTxInUndo) → CoinsProg Bool
  | [] => pure true
  | (txin, undo) :: rest => do
    let fClean ← applyTxInUndo undo txin.prevout
    let fRest ← applyTxUndo rest
    return fClean && fRest

/-- Whether the record of a disconnected transaction has the outputs that the transaction made. -/
def outsMatch (tx : CTransaction) (nHeight : Nat) (outs : CCoins) : Bool :=
  let outs := outs.clearUnspendable
  let outsBlock := CCoins.fromTx tx nHeight
  let outs := if outsBlock.nVersion < 0 then { outs with nVersion := outsBlock.nVersion } else outs
  outs.beq outsBlock

/-- The removal of the outputs of a transaction. -/
def removeOutputs (tx : CTransaction) (nHeight : Nat) : CoinsProg Bool := do
  let outs ← modifyCoins (tx.getHash env.hash) fun _ => .empty
  return outsMatch tx nHeight outs

/-- The loop of `DisconnectBlock`, on the transactions but the coinbase with their undo data, the
last first. -/
def disconnectTxs (nHeight : Nat) : List (CTransaction × CTxUndo) → CoinsProg Bool
  | [] => pure true
  | (tx, txundo) :: rest => do
    let fMatch ← removeOutputs env tx nHeight
    Prog.check (txundo.vprevout.length == tx.vin.length) .error
    let fClean ← applyTxUndo (tx.vin.zip txundo.vprevout).reverse
    let fRest ← disconnectTxs nHeight rest
    return fMatch && fClean && fRest

/-- `DisconnectBlock` with the undo data it has read; the value of `fClean`. -/
def disconnectBlock (block : CBlock) (pindex : BlockRef) (blockUndo : CBlockUndo) :
    CoinsProg Bool := do
  let hashBest ← getBestBlock
  Prog.check (pindex.hashBlock == hashBest) .assertion
  Prog.check (blockUndo.vtxundo.length + 1 == block.vtx.length) .error
  match block.vtx with
  | [] => .fail .error
  | coinbase :: vtx => do
    let fClean ← disconnectTxs env pindex.nHeight (vtx.zip blockUndo.vtxundo).reverse
    let fMatch ← removeOutputs env coinbase pindex.nHeight
    setBestBlock (pindex.hashPrev.getD 0)
    return fClean && fMatch

end

end GC
