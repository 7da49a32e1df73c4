import GameCredits.Model.CoinSelection
import GameCredits.Model.Miner
import GameCredits.Model.SigHash
import GameCredits.Model.Sign

/-!
# Making a transaction (wallet/wallet.cpp, script/sign.cpp, coincontrol.h)

`CWallet::CreateTransaction` with what it calls: `SelectCoins`, `SignSignature`, `GetMinimumFee`. What a
round of its loop gets from the rest of the wallet, from the memory pool and at random can be different
in every round.
-/

namespace GC

open Framework (Bytes)

/-! ## Dust -/

/-- `CTxOut::GetDustThreshold`. -/
def CTxOut.getDustThreshold (out : CTxOut) (minRelayTxFee : CFeeRate) : Int :=
  int64 (3 * minRelayTxFee.getFee (out.bytes.length + 148))

/-- `CTxOut::IsDust`. -/
def CTxOut.isDust (out : CTxOut) (minRelayTxFee : CFeeRate) : Bool :=
  decide (out.nValue < out.getDustThreshold minRelayTxFee)

/-! ## Signing -/

/-- What signing takes from elsewhere. Of `crypto` the hash functions and `CheckSignatureElement` are
used. -/
structure Signing where
  options : SolverOptions
  crypto : Checker
  keystore : KeyStore crypto.hash160
  /-- `CKeyStore::GetKey` and `CKey::Sign`. -/
  sign : UInt160 → SignatureDigest → Option Bytes
  /-- `CPubKey::Verify`. -/
  verify : (vchPubKey : Bytes) → SignatureDigest → (vchSig : Bytes) → Bool

namespace Signing

variable (signing : Signing) (txTo : CTransaction) (nIn : UInt32)

/-- `TransactionSignatureChecker::CheckSig`. -/
def checkSig (vchSigIn vchPubKey : Bytes) (scriptCode : CScript) : Bool :=
  let pubkey := parsePubKey vchPubKey
  if pubkey.isEmpty then false
  else
    match vchSigIn.getLast? with
    | none => false
    | some nHashType =>
      (signatureHash scriptCode txTo nIn nHashType.toUInt32).any fun sighash =>
        signing.verify pubkey sighash vchSigIn.dropLast

/-- `TransactionSignatureChecker`. -/
def checker : Checker := { signing.crypto with checkSig := signing.checkSig txTo nIn }

/-- `TransactionSignatureCreator::CreateSig`. -/
def createSig (nHashType : UInt32) (address : UInt160) (scriptCode : CScript) : Option Bytes := do
  let hash ← signatureHash scriptCode txTo nIn nHashType
  let vchSig ← signing.sign address hash
  some (vchSig ++ [nHashType.toUInt8])

/-- `TransactionSignatureCreator`. -/
def creator (nHashType : UInt32) : SignatureCreator where
  checker := signing.checker txTo nIn
  keystore := signing.keystore
  createSig := signing.createSig txTo nIn nHashType

/-- `SignSignature`; `none` where an assertion fails. -/
def signSignature (txFrom : CoinTx) (nHashType : UInt32 := SIGHASH_ALL) :
    Option (Bool × CTransaction) := do
  let txin ← txTo.vin[nIn.toNat]?
  let txout ← txFrom.vout[txin.prevout.n.toNat]?
  let ret := produceSignature signing.options (signing.creator txTo nIn nHashType) txout.scriptPubKey
  some (ret.1, { txTo with vin := txTo.vin.set nIn.toNat { txin with scriptSig := ret.2 } })

end Signing

/-! ## Fees -/

/-- The options for fees. -/
structure FeePolicy where
  payTxFee : CFeeRate
  fPayAtLeastCustomFee : Bool
  minTxFee : CFeeRate
  minRelayTxFee : CFeeRate
  maxTxFee : Int

/-- `CWallet::GetMinimumFee`; `estimateFee` is what the pool estimates. -/
def FeePolicy.getMinimumFee (fees : FeePolicy) (nTxBytes : Nat) (estimateFee : CFeeRate) : Int :=
  let nFeeNeeded := fees.payTxFee.getFee nTxBytes
  let nFeeNeeded :=
    if fees.fPayAtLeastCustomFee ∧ 0 < nFeeNeeded ∧ nFeeNeeded < fees.payTxFee.getFeePerK then
      fees.payTxFee.getFeePerK
    else nFeeNeeded
  let nFeeNeeded := if nFeeNeeded = 0 then estimateFee.getFee nTxBytes else nFeeNeeded
  let nFeeNeeded := if nFeeNeeded = 0 then fees.minTxFee.getFee nTxBytes else nFeeNeeded
  let nFeeNeeded :=
    if nFeeNeeded < fees.minRelayTxFee.getFee nTxBytes then fees.minRelayTxFee.getFee nTxBytes
    else nFeeNeeded
  if fees.maxTxFee < nFeeNeeded then fees.maxTxFee else nFeeNeeded

/-! ## Recipients -/

structure CRecipient where
  scriptPubKey : CScript
  nAmount : Int
  fSubtractFeeFromAmount : Bool
  deriving DecidableEq, Repr

/-- How `CreateTransaction` fails: with `strFailReason`, or in an assertion. -/
inductive CreateFailure where
  | reason (strFailReason : String)
  | assertion
  deriving DecidableEq, Repr

/-- `nSubtractFeeFromAmount`. -/
def subtractCount (vecSend : List CRecipient) : Nat :=
  vecSend.countP CRecipient.fSubtractFeeFromAmount

/-- The loop over the amounts; `none` where it ends with an error. -/
def sumAmounts (nValue : Int) : List CRecipient → Option Int
  | [] => some nValue
  | recipient :: vecSend =>
    if nValue < 0 ∨ recipient.nAmount < 0 then none
    else sumAmounts (int64 (nValue + recipient.nAmount)) vecSend

section

variable (minRelayTxFee : CFeeRate) (nFeeRet : Int) (nSubtractFeeFromAmount : Nat)

/-- The output for a recipient. -/
def payRecipient (fFirst : Bool) (recipient : CRecipient) : CTxOut :=
  if recipient.fSubtractFeeFromAmount then
    let nValue := int64 (recipient.nAmount - nFeeRet.tdiv nSubtractFeeFromAmount)
    ⟨if fFirst then int64 (nValue - nFeeRet.tmod nSubtractFeeFromAmount) else nValue,
      recipient.scriptPubKey⟩
  else ⟨recipient.nAmount, recipient.scriptPubKey⟩

/-- Why an output that is dust cannot be made. -/
def dustReason (recipient : CRecipient) (txout : CTxOut) : String :=
  if recipient.fSubtractFeeFromAmount ∧ 0 < nFeeRet then
    if txout.nValue < 0 then "The transaction amount is too small to pay the fee"
    else "The transaction amount is too small to send after the fee has been deducted"
  else "Transaction amount too small"

/-- The loop over the recipients. -/
def payRecipients : (fFirst : Bool) → List CRecipient → Except CreateFailure (List CTxOut)
  | _, [] => .ok []
  | fFirst, recipient :: vecSend => do
    let txout := payRecipient nFeeRet nSubtractFeeFromAmount fFirst recipient
    if txout.isDust minRelayTxFee then .error (.reason (dustReason nFeeRet recipient txout))
    else
      let vout ← payRecipients (fFirst && !recipient.fSubtractFeeFromAmount) vecSend
      .ok (txout :: vout)

/-- The loop that takes `nDust` from the first recipient who pays the fee. -/
def subtractFromFirst (nDust : Int) : List CRecipient → List CTxOut → Except CreateFailure (List CTxOut)
  | recipient :: vecSend, txout :: vout =>
    if recipient.fSubtractFeeFromAmount then
      let txout := { txout with nValue := int64 (txout.nValue - nDust) }
      if txout.isDust minRelayTxFee then
        .error (.reason "The transaction amount is too small to send after the fee has been deducted")
      else .ok (txout :: vout)
    else do
      let vout ← subtractFromFirst nDust vecSend vout
      .ok (txout :: vout)
  | _, vout => .ok vout

end

/-! ## CreateTransaction -/

structure CCoinControl where
  destChange : Destination
  setSelected : List COutPoint

/-- `HasSelected`. -/
def CCoinControl.hasSelected (coinControl : CCoinControl) : Bool := !coinControl.setSelected.isEmpty

/-- `IsSelected`. -/
def CCoinControl.isSelected (coinControl : CCoinControl) (hash : UInt256) (n : UInt32) : Bool :=
  decide (⟨hash, n⟩ ∈ coinControl.setSelected)

/-- What `CreateTransaction` works with all the time. -/
structure Spender where
  signing : Signing
  fees : FeePolicy
  bSpendZeroConfChange : Bool
  fSendFreeTransactions : Bool
  coinControl : Option CCoinControl
  /-- Where the wallet has the transaction with a hash: the order of a set of pointers. -/
  address : UInt256 → Nat
  /-- `chainActive.Height()`. -/
  nHeight : Int

/-- What is new in every round of the loop. -/
structure RoundInput where
  /-- What `AvailableCoins` finds without coin control. -/
  vCoins : List COutput
  /-- For the calls of `SelectCoinsMinConf`. -/
  draws : Nat → CoinDraws
  /-- `GetDepthInMainChain`. -/
  nDepth : CoinTx → Int
  /-- `GetReservedKey`; `none` where the key pool is empty. -/
  reservedKey : Option Bytes
  /-- The random number for the place of the change. -/
  nRand : Nat
  /-- `mempool.estimatePriority`. -/
  estimatePriority : Float
  /-- `mempool.estimateFee`. -/
  estimateFee : CFeeRate

/-- The transaction, with `nFeeRet` and `nChangePosRet`. -/
structure CreatedTx where
  tx : CTransaction
  nFeeRet : Int
  nChangePosRet : Int
  deriving DecidableEq

/-- The outputs of a transaction. -/
structure Outputs where
  vout : List CTxOut
  nFeeRet : Int
  nChangePosRet : Int

def MAX_STANDARD_TX_SIZE : Nat := 100000
def MAX_FREE_TRANSACTION_CREATE_SIZE : Nat := 1000

/-- `CTransaction::CURRENT_VERSION`. -/
def CURRENT_VERSION : Int := 1

namespace Spender

variable (w : Spender) (input : RoundInput)

/-- `SelectCoins`. -/
def selectCoins (nTargetValue : Int) : Option (List InputCoin × Int) :=
  match w.coinControl.filter CCoinControl.hasSelected with
  | some coinControl =>
    let vCoins := input.vCoins.filter fun out => coinControl.isSelected out.tx.hash out.i
    let ret := takeCoins ((vCoins.filter COutput.fSpendable).map fun out => (out.coin.nValue, out.coin))
    if nTargetValue ≤ ret.2 then some ret else none
  | none =>
    (selectCoinsMinConf nTargetValue (input.draws 0) 1 6 input.vCoins) <|>
      (selectCoinsMinConf nTargetValue (input.draws 1) 1 1 input.vCoins) <|>
      (if w.bSpendZeroConfChange then selectCoinsMinConf nTargetValue (input.draws 2) 0 1 input.vCoins
      else none)

/-- `scriptChange`. -/
def scriptChange : Except CreateFailure CScript :=
  match w.coinControl.filter fun coinControl => coinControl.destChange ≠ .noDestination with
  | some coinControl => .ok (getScriptForDestination coinControl.destChange)
  | none =>
    match input.reservedKey with
    | none => .error .assertion
    | some vchPubKey => .ok (getScriptForDestination (.keyID (w.signing.crypto.hash160 vchPubKey)))

/-- Change that is dust is raised, when recipients pay the fee. -/
def raiseChange (vecSend : List CRecipient) (vout : List CTxOut) (newTxOut : CTxOut) :
    Except CreateFailure (List CTxOut × CTxOut) :=
  if 0 < subtractCount vecSend ∧ newTxOut.isDust w.fees.minRelayTxFee then do
    let nDust := int64 (newTxOut.getDustThreshold w.fees.minRelayTxFee - newTxOut.nValue)
    let vout ← subtractFromFirst w.fees.minRelayTxFee nDust vecSend vout
    .ok (vout, { newTxOut with nValue := int64 (newTxOut.nValue + nDust) })
  else .ok (vout, newTxOut)

/-- What is done with the change. -/
def addChange (vecSend : List CRecipient) (vout : List CTxOut) (nFeeRet nChange : Int) :
    Except CreateFailure Outputs :=
  if 0 < nChange then do
    let scriptChange ← w.scriptChange input
    let (vout, newTxOut) ← w.raiseChange vecSend vout ⟨nChange, scriptChange⟩
    if newTxOut.isDust w.fees.minRelayTxFee then .ok ⟨vout, int64 (nFeeRet + nChange), -1⟩
    else
      let position := input.nRand % (vout.length + 1)
      .ok ⟨vout.insertIdx position newTxOut, nFeeRet, position⟩
  else .ok ⟨vout, nFeeRet, -1⟩

/-- The order of `setCoins`. -/
def coinLe (a b : InputCoin) : Bool :=
  decide (w.address a.1.hash < w.address b.1.hash ∨ w.address a.1.hash = w.address b.1.hash ∧ a.2 ≤ b.2)

/-- An input for a coin; the sequence number is the last but one. -/
def coinInput (coin : InputCoin) : CTxIn := ⟨⟨coin.1.hash, coin.2⟩, [], 0xFFFFFFFE⟩

/-- The loop that signs, from input `nIn`. -/
def signInputs (nIn : Nat) : List InputCoin → CTransaction → Except CreateFailure CTransaction
  | [], txNew => .ok txNew
  | coin :: coins, txNew =>
    match w.signing.signSignature txNew (UInt32.ofNat nIn) coin.1 with
    | none => .error .assertion
    | some (false, _) => .error (.reason "Signing transaction failed")
    | some (true, txNew) => signInputs (nIn + 1) coins txNew

/-- Whether the transaction can be sent for free. -/
def sendsFree (coins : List InputCoin) (tx : CTransaction) (nBytes : Nat) : Bool :=
  w.fSendFreeTransactions && decide (nBytes ≤ MAX_FREE_TRANSACTION_CREATE_SIZE) &&
    (let dInputs := coins.foldl (fun dPriority coin =>
        let age := input.nDepth coin.1
        let age := if age ≠ 0 then age + 1 else age
        dPriority + Float.ofInt coin.nValue * Float.ofInt age) (0 : Float)
      let dPriority := computePriority tx dInputs nBytes
      let dPriorityNeeded := input.estimatePriority
      (decide (dPriorityNeeded ≤ 0) && allowFree dPriority) ||
        (decide (0 < dPriorityNeeded) && decide (dPriorityNeeded ≤ dPriority)))

/-- The size is checked, and the fee: the fee for the next round, unless this one is enough. -/
def checkFee (coins : List InputCoin) (created : CreatedTx) : Except CreateFailure (Option Int) :=
  let nBytes := created.tx.getSerializeSize
  if MAX_STANDARD_TX_SIZE ≤ nBytes then .error (.reason "Transaction too large")
  else if w.sendsFree input coins created.tx nBytes then .ok none
  else
    let nFeeNeeded := w.fees.getMinimumFee nBytes input.estimateFee
    if nFeeNeeded < w.fees.minRelayTxFee.getFee nBytes then
      .error (.reason "Transaction too large for fee policy")
    else if nFeeNeeded ≤ created.nFeeRet then .ok none
    else .ok (some nFeeNeeded)

variable (vecSend : List CRecipient) (nLockTime : UInt32)

/-- One round of the loop: the transaction, and the fee for another round. -/
def createRound (nValue nFeeRet : Int) : Except CreateFailure (CreatedTx × Option Int) := do
  let fSender := decide (subtractCount vecSend = 0)
  let nTotalValue := if fSender then int64 (nValue + nFeeRet) else nValue
  let vout ← payRecipients w.fees.minRelayTxFee nFeeRet (subtractCount vecSend) true vecSend
  match w.selectCoins input nTotalValue with
  | none => .error (.reason "Insufficient funds")
  | some (setCoins, nValueIn) =>
    let nChange := int64 (nValueIn - nValue)
    let nChange := if fSender then int64 (nChange - nFeeRet) else nChange
    let outputs ← w.addChange input vecSend vout nFeeRet nChange
    let coins := setCoins.mergeSort w.coinLe
    let txNew ← w.signInputs 0 coins ⟨CURRENT_VERSION, coins.map coinInput, outputs.vout, nLockTime⟩
    let created : CreatedTx := ⟨txNew, outputs.nFeeRet, outputs.nChangePosRet⟩
    let nFeeNeeded ← w.checkFee input coins created
    .ok (created, nFeeNeeded)

/-- The loop of `CreateTransaction`, from round `n` on; `none` where `fuel` rounds are not enough. -/
def createRounds (rounds : Nat → RoundInput) (nValue : Int) :
    (fuel n : Nat) → (nFeeRet : Int) → Option (Except CreateFailure CreatedTx)
  | 0, _, _ => none
  | fuel + 1, n, nFeeRet =>
    match w.createRound (rounds n) vecSend nLockTime nValue nFeeRet with
    | .error e => some (.error e)
    | .ok (created, none) => some (.ok created)
    | .ok (_, some nFeeNeeded) => createRounds rounds nValue fuel (n + 1) nFeeNeeded

/-- `txNew.nLockTime`, with the random numbers for `GetRandInt(10)` and `GetRandInt(100)`. -/
def lockTime (nRand nRandBack : Nat) : Int :=
  let nLockTime := max 0 (w.nHeight - 10)
  if nRand % 10 = 0 then max 0 (nLockTime - (nRandBack % 100 : Nat)) else nLockTime

/-- `CWallet::CreateTransaction`, with at most `fuel` rounds. -/
def createTransaction (rounds : Nat → RoundInput) (nRand nRandBack fuel : Nat) :
    Option (Except CreateFailure CreatedTx) :=
  let positive : Except CreateFailure CreatedTx :=
    .error (.reason "Transaction amounts must be positive")
  match sumAmounts 0 vecSend with
  | none => some positive
  | some nValue =>
    if vecSend.isEmpty ∨ nValue < 0 then some positive
    else
      let nLockTime := w.lockTime nRand nRandBack
      if nLockTime ≤ w.nHeight % 2 ^ 32 ∧ nLockTime < LOCKTIME_THRESHOLD then
        w.createRounds vecSend (UInt32.ofNat nLockTime.toNat) rounds nValue fuel 0 0
      else some (.error .assertion)

end Spender

end GC
