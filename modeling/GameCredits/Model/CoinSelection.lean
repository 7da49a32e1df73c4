import GameCredits.Framework.Subset
import GameCredits.Model.Transaction

/-!
# Selecting coins (wallet/wallet.cpp)

`SelectCoinsMinConf` and the search of `ApproximateBestSubset`. A pointer to a transaction of the wallet
is the transaction. Random numbers are given as functions of the place where they are drawn.
-/

namespace GC

open Framework.Subset (pick shuffle)

/-! ## Coins -/

/-- What is used of a transaction of the wallet; its hash tells it from the others. -/
structure CoinTx where
  hash : UInt256
  vout : List CTxOut
  /-- `IsFromMe(ISMINE_ALL)`. -/
  fIsFromMe : Bool
  deriving DecidableEq

/-- `pair<const CWalletTx*, unsigned int>`. -/
abbrev InputCoin := CoinTx × UInt32

/-- `pcoin->vout[i].nValue`. -/
def InputCoin.nValue (coin : InputCoin) : Int := (coin.1.vout[coin.2.toNat]?.getD .null).nValue

structure COutput where
  tx : CoinTx
  i : UInt32
  nDepth : Int
  fSpendable : Bool

def COutput.coin (output : COutput) : InputCoin := (output.tx, output.i)

/-! ## ApproximateBestSubset -/

/-- The variables of `ApproximateBestSubset`. -/
structure SubsetSearch where
  nTotal : Int
  vfIncluded : List Bool
  fReachedTarget : Bool
  vfBest : List Bool
  nBest : Int

section

variable (nTargetValue : Int)

/-- A coin is included, and taken out again when the target is reached. -/
def SubsetSearch.includeCoin (i : Nat) (nValue : Int) (search : SubsetSearch) : SubsetSearch :=
  let nTotal := int64 (search.nTotal + nValue)
  let vfIncluded := search.vfIncluded.set i true
  if nTargetValue ≤ nTotal then
    let fBetter := decide (nTotal < search.nBest)
    { nTotal := int64 (nTotal - nValue)
      vfIncluded := vfIncluded.set i false
      fReachedTarget := true
      vfBest := if fBetter then vfIncluded else search.vfBest
      nBest := if fBetter then nTotal else search.nBest }
  else { search with nTotal, vfIncluded }

/-- One pass over the coins from number `i` on; `fChosen` says whether a coin is tried. -/
def SubsetSearch.passFrom (fChosen : Nat → Bool → Bool) (i : Nat) :
    List Int → SubsetSearch → SubsetSearch
  | [], search => search
  | nValue :: values, search =>
    passFrom fChosen (i + 1) values
      (if fChosen i (search.vfIncluded.getD i false) then search.includeCoin nTargetValue i nValue
      else search)

variable (values : List Int)

/-- One repetition: the coins are tried at random, then those left out. -/
def SubsetSearch.repetition (flips : Nat → Bool) (search : SubsetSearch) : SubsetSearch :=
  let start := { search with
    nTotal := 0, vfIncluded := .replicate values.length false, fReachedTarget := false }
  let first := passFrom nTargetValue (fun i _ => flips i) 0 values start
  if first.fReachedTarget then first
  else passFrom nTargetValue (fun _ fIncluded => !fIncluded) 0 values first

/-- The loop of `ApproximateBestSubset`, with `iterations` to go. -/
def SubsetSearch.repetitions (flips : Nat → Nat → Bool) :
    (iterations nRep : Nat) → SubsetSearch → SubsetSearch
  | 0, _, search => search
  | iterations + 1, nRep, search =>
    if search.nBest = nTargetValue then search
    else repetitions flips iterations (nRep + 1) (search.repetition nTargetValue values (flips nRep))

/-- `ApproximateBestSubset`: `vfBest` and `nBest`. -/
def approximateBestSubset (nTotalLower : Int) (flips : Nat → Nat → Bool) (iterations : Nat := 1000) :
    List Bool × Int :=
  let search := SubsetSearch.repetitions nTargetValue values flips iterations 0
    ⟨0, [], false, .replicate values.length true, nTotalLower⟩
  (search.vfBest, search.nBest)

/-! ## SelectCoinsMinConf -/

/-- The variables of the loop of `SelectCoinsMinConf` over the coins. -/
structure CoinScan where
  vValue : List (Int × InputCoin)
  nTotalLower : Int
  coinLowestLarger : Int × Option InputCoin

/-- The loop of `SelectCoinsMinConf` over the coins; a coin of the exact value ends it. -/
def scanCoins (nConfMine nConfTheirs : Int) : List COutput → CoinScan → InputCoin ⊕ CoinScan
  | [], scan => .inr scan
  | output :: vCoins, scan =>
    if !output.fSpendable ||
        decide (output.nDepth < if output.tx.fIsFromMe then nConfMine else nConfTheirs) then
      scanCoins nConfMine nConfTheirs vCoins scan
    else
      let n := output.coin.nValue
      if n = nTargetValue then .inl output.coin
      else scanCoins nConfMine nConfTheirs vCoins (
        if n < int64 (nTargetValue + CENT) then
          { scan with
            vValue := scan.vValue ++ [(n, output.coin)]
            nTotalLower := int64 (scan.nTotalLower + n) }
        else if n < scan.coinLowestLarger.1 then { scan with coinLowestLarger := (n, some output.coin) }
        else scan)

/-- `setCoinsRet` and `nValueRet` after all of the coins. -/
def takeCoins (coins : List (Int × InputCoin)) : List InputCoin × Int :=
  coins.foldl (fun ret coin => (ret.1.insert coin.2, int64 (ret.2 + coin.1))) ([], 0)

/-- The random numbers of a call of `SelectCoinsMinConf`. The sort leaves open the order of coins of
the same amount: that is the order of a second shuffle. -/
structure CoinDraws where
  shuffle : Nat → Nat
  ties : Nat → Nat
  /-- For the two calls of `ApproximateBestSubset`. -/
  flips : Bool → Nat → Nat → Bool

/-- The subset for the target or, when that is not hit, for a cent more. -/
def bestSubset (draws : CoinDraws) (values : List Int) (nTotalLower : Int) : List Bool × Int :=
  let best := approximateBestSubset nTargetValue values nTotalLower (draws.flips false)
  if best.2 ≠ nTargetValue ∧ int64 (nTargetValue + CENT) ≤ nTotalLower then
    approximateBestSubset (int64 (nTargetValue + CENT)) values nTotalLower (draws.flips true)
  else best

/-- What `SelectCoinsMinConf` takes when the smaller coins exceed the target. -/
def selectSubset (draws : CoinDraws) (scan : CoinScan) : List (Int × InputCoin) :=
  let vValue := (shuffle draws.ties scan.vValue).mergeSort fun a b => decide (b.1 ≤ a.1)
  let best := bestSubset nTargetValue draws (vValue.map Prod.fst) scan.nTotalLower
  match scan.coinLowestLarger with
  | (_, none) => pick vValue best.1
  | (n, some coin) =>
    if best.2 ≠ nTargetValue ∧ best.2 < int64 (nTargetValue + CENT) ∨ n ≤ best.2 then [(n, coin)]
    else pick vValue best.1

/-- `SelectCoinsMinConf` after the shuffle. -/
def selectInOrder (draws : CoinDraws) (nConfMine nConfTheirs : Int) (vCoins : List COutput) :
    Option (List InputCoin × Int) :=
  match scanCoins nTargetValue nConfMine nConfTheirs vCoins ⟨[], 0, 2 ^ 63 - 1, none⟩ with
  | .inl coin => some (takeCoins [(coin.nValue, coin)])
  | .inr scan =>
    if scan.nTotalLower = nTargetValue then some (takeCoins scan.vValue)
    else if scan.nTotalLower < nTargetValue then
      scan.coinLowestLarger.2.map fun coin => takeCoins [(scan.coinLowestLarger.1, coin)]
    else some (takeCoins (selectSubset nTargetValue draws scan))

/-- `SelectCoinsMinConf`: `setCoinsRet` and `nValueRet`, or `none` where it returns false. -/
def selectCoinsMinConf (draws : CoinDraws) (nConfMine nConfTheirs : Int) (vCoins : List COutput) :
    Option (List InputCoin × Int) :=
  selectInOrder nTargetValue draws nConfMine nConfTheirs (shuffle draws.shuffle vCoins)

end

end GC
