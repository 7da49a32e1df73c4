import GameCredits.Framework.Run
import GameCredits.Model.ChainState
import GameCredits.Framework.Forest
import GameCredits.Proof.Disconnect
import GameCredits.Proof.Candidates
import GameCredits.Proof.Flags
import GameCredits.Proof.Subsidy
import GameCredits.Proof.Downloads
import GameCredits.Proof.Merkle
import GameCredits.Proof.MerkleBlock
import GameCredits.Proof.SoftFork
import GameCredits.Proof.CoinsStack
import GameCredits.Proof.MempoolTip
import GameCredits.Proof.CoinsTip
import GameCredits.Proof.Net
import GameCredits.Proof.Wire
import GameCredits.Proof.CheckQueue
import GameCredits.Proof.KeyPool
import GameCredits.Proof.Headers
import GameCredits.Proof.SigOps
import GameCredits.Model.Sign
import GameCredits.Proof.ScriptRun
import GameCredits.Proof.Sign
import GameCredits.Proof.AddrMan
import GameCredits.Proof.Amounts
import GameCredits.Proof.Retarget
import GameCredits.Proof.Gravity
import GameCredits.Proof.Locator
import GameCredits.Proof.Orphans
import GameCredits.Framework.Multimap
import GameCredits.Model.Miner
import GameCredits.Proof.Miner
import GameCredits.Proof.Crash
import GameCredits.Proof.Links
import GameCredits.Proof.Compressor
import GameCredits.Proof.Compact
import GameCredits.Proof.SignatureEncoding
import GameCredits.Proof.Multisig
import GameCredits.Proof.MempoolRemove
import GameCredits.Proof.MerkleBranch
import GameCredits.Proof.Work
import GameCredits.Proof.ScriptBuild
import GameCredits.Model.SigHash
import GameCredits.Proof.SigHash
import GameCredits.Proof.Serialize
import GameCredits.Framework.Radix
import GameCredits.Model.Text
import GameCredits.Proof.Base58
import GameCredits.Framework.Scan
import GameCredits.Proof.Money
import GameCredits.Framework.Staggered
import GameCredits.Model.Bloom
import GameCredits.Proof.Bloom
import GameCredits.Proof.RollingBloom
import GameCredits.Proof.Fetch
import GameCredits.Proof.Pruning
import GameCredits.Framework.Load
import GameCredits.Model.AddrFile
import GameCredits.Proof.AddrLoad
import GameCredits.Proof.AddrChecked
import GameCredits.Proof.AddrSaved
import GameCredits.Proof.Wallet
import GameCredits.Proof.CoinSelection
import GameCredits.Proof.BufferedFile
import GameCredits.Proof.Crypter
import GameCredits.Proof.Solver
import GameCredits.Proof.Scheduler
import GameCredits.Proof.Fees
import GameCredits.Proof.OrphanTries
import GameCredits.Proof.CombineSigs
import GameCredits.Proof.Signing
import GameCredits.Proof.MruSet
import GameCredits.Proof.LimitedMap
import GameCredits.Proof.TimeData
import GameCredits.Model.Base64
import GameCredits.Proof.Base64
import GameCredits.Model.Sha2
import GameCredits.Proof.Sha2
import GameCredits.Proof.Bip32
import GameCredits.Proof.Reorder
import GameCredits.Proof.SpendIndex
import GameCredits.Framework.Components
import GameCredits.Model.Groupings
import GameCredits.Proof.Groupings
import GameCredits.Framework.Extents
import GameCredits.Model.BlockFiles
import GameCredits.Proof.BlockFiles
import GameCredits.Proof.MedianTime
import GameCredits.Framework.Limbs
import GameCredits.Model.ArithUint256
import GameCredits.Proof.ArithUint256
import GameCredits.Framework.RefCounts
import GameCredits.Model.PageLocker
import GameCredits.Proof.PageLocker
import GameCredits.Model.Node
import GameCredits.Proof.Filed
import GameCredits.Proof.BestChain
import GameCredits.Proof.Node
import GameCredits.Framework.DepthFirst
import GameCredits.Proof.CheckIndex
import GameCredits.Model.CreateTransaction
import GameCredits.Proof.CreateTransaction
