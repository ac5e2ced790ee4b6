import Respublica.Controller.Agreement
import Respublica.Controller.Atomicity
import Respublica.Controller.BlockTime
import Respublica.Controller.CachedPrograms
import Respublica.Controller.ChainEnd
import Respublica.Controller.ChainLedger
import Respublica.Controller.CoinAuthority
import Respublica.Controller.CoinSupply
import Respublica.Controller.ComputeMetering
import Respublica.Controller.DryRun
import Respublica.Controller.HostCharge
import Respublica.Controller.LinkedChain
import Respublica.Controller.NetworkSize
import Respublica.Controller.Nonce
import Respublica.Controller.ObjectSeparation
import Respublica.Controller.ObjectWrites
import Respublica.Controller.Ownership
import Respublica.Controller.ProcExit
import Respublica.Controller.ProgramAuthority
import Respublica.Controller.Read
import Respublica.Controller.Receipt
import Respublica.Controller.Replicas
import Respublica.Controller.Resubmission
import Respublica.Controller.Revert
import Respublica.Controller.StackBounds
import Respublica.Controller.StorageGrowth
import Respublica.Controller.StreamIo
import Respublica.Crypto.MerkleTree
import Respublica.Encode.Base58Text
import Respublica.Encode.Hex
import Respublica.Protocol.BlockId
import Respublica.Protocol.TransactionId
import Respublica.StateDb.Accounting
import Respublica.StateDb.AtRevision
import Respublica.StateDb.ForkHeads
import Respublica.StateDb.IndexTree
import Respublica.Vm.ArgumentPassing
