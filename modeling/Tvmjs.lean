import Tvmjs.Base.Prog
import Tvmjs.Base.UndoLog
import Tvmjs.Base.Posting
import Tvmjs.Client.StakeBooks
import Tvmjs.Client.StakeIndex
import Tvmjs.Client.Energy
import Tvmjs.Client.Usage
import Tvmjs.Client.MiningInvariant
import Tvmjs.Base.PackedTrie
import Tvmjs.Rlp.Canonical
import Tvmjs.Mpt.Proof
import Tvmjs.Mpt.Integrity
import Tvmjs.Mpt.CachedDB
import Tvmjs.Util.AccountRlp
import Tvmjs.Tvm.JumpAnalysis
import Tvmjs.Tvm.TransientStorage
import Tvmjs.Tvm.Journal
import Tvmjs.Tvm.Arithmetic
import Tvmjs.Tvm.Memory
import Tvmjs.Tvm.SignaturePrecompiles
import Tvmjs.Tvm.Modexp
import Tvmjs.Blockchain.Iterator
import Tvmjs.Blockchain.AtomicPut
import Tvmjs.Blockchain.CliqueReload
import Tvmjs.Client.TransactionRoot
import Tvmjs.Client.SignatureWeight
import Tvmjs.BinaryTree.Proof
import Tvmjs.StateManager.DumpStorage
import Tvmjs.Util.AccessListRuns
import Tvmjs.Blockchain.GetBlocks
import Tvmjs.Blockchain.NeededHashes
import Tvmjs.Client.AssetIssue
import Tvmjs.Client.MergeScan
import Tvmjs.Util.AccessListRoundTrip
import Tvmjs.Tvm.ReturnBuffer
import Tvmjs.Client.InternalTransactions
import Tvmjs.Tvm.CallNonces
