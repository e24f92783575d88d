import Twig.Lib.Fallible
import Twig.Lib.Run
import Twig.Lib.OrdMap
import Twig.Lib.Exact
import Twig.Eosio.Types
import Twig.Eosio.Chain
import Twig.Lib.Book
import Twig.Token.Balance
import Twig.Token.Ledger
import Twig.Token.Admin
import Twig.Token.User
import Twig.Token.Config
import Twig.Token.Conservation
import Twig.Token.Batch
import Twig.Token.Issue
import Twig.Token.Drops
import Twig.Token.Lifetime
import Twig.Msig.Basic
import Twig.Msig.Steps
import Twig.Msig.Safety
import Twig.Lib.Truncate
import Twig.System.Basic
import Twig.System.Randomness
import Twig.System.Chunk
import Twig.System.Emission
import Twig.Bank.Basic
import Twig.Bank.Rewards
import Twig.Bank.Vesting
import Twig.Bank.Schedule
import Twig.System.Producers
import Twig.System.Registry
import Twig.System.Onblock
import Twig.System.Schedule
import Twig.System.BlockInfo
import Twig.Lib.SortedBy
import Twig.System.Policy
import Twig.System.PolicyKeys
import Twig.System.Launch
import Twig.System.Throttle
import Twig.System.Luck
import Twig.Msig.Delay
import Twig.Eosio.Wire
import Twig.Token.Wire
import Twig.Names.Basic
import Twig.Names.Wire
import Twig.Names.Escrow
import Twig.Bank.Payouts
import Twig.Bank.Solvency
import Twig.System.Shares
import Twig.System.Window
import Twig.System.BatchInfo
import Twig.System.Election
import Twig.System.Native
import Twig.System.AuthChange
import Twig.System.NewAccount
import Twig.System.FinalizerCache
import Twig.System.CleanBlocks
import Twig.System.Generator
import Twig.System.Pepper
import Twig.Msig.Pairing
import Twig.Lib.Component
import Twig.Msig.Isolation
import Twig.Token.Statement
import Twig.Token.Winding
import Twig.Names.Auction
import Twig.System.Admin
import Twig.System.Contract
import Twig.System.Signatures
import Twig.System.Voteless
import Twig.System.Replay
import Twig.Deployment.Basic
import Twig.Deployment.Soundness
import Twig.Deployment.Progress
import Twig.Lib.Format
import Twig.Msig.Transaction
import Twig.Wrap.Basic
import Twig.Names.Auctionable
import Twig.Deployment.Packed
import Twig.Names.Isolation
