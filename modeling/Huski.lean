import Huski.Lib.TSys
import Huski.Lib.Tally
import Huski.Lib.SharePool
import Huski.Lib.ERC20
import Huski.Lib.Custodian
import Huski.Lib.ERC721
import Huski.Lib.RewardShare
import Huski.Lib.Delegation
import Huski.Lib.FloorSum
import Huski.Lib.Abi
import Huski.Lib.Vesting
import Huski.Lib.Snapshots
import Huski.Lib.Forest
import Huski.Vault.DebtLedger
import Huski.Vault.CashFlow
import Huski.Vault.SharePrice
import Huski.Vault.Reserve
import Huski.Vault.Reentrancy
import Huski.Vault.Liquidation
import Huski.Vault.InterestModel
import Huski.Vault.Accrual
import Huski.Token.HuskyToken
import Huski.Token.StakeToken
import Huski.Token.BadgePoints
import Huski.Token.LinearRelease
import Huski.Token.Governance
import Huski.Token.Votes
import Huski.Token.PriorVotes
import Huski.Token.Locks
import Huski.Token.Locker
import Huski.Token.Vesting
import Huski.Token.Interference
import Huski.FairLaunch.Model
import Huski.FairLaunch.Spec
import Huski.FairLaunch.Run
import Huski.FairLaunch.Emission
import Huski.FairLaunch.Debts
import Huski.FairLaunch.Payment
import Huski.FairLaunch.Admin
import Huski.FairLaunch.Reverts
import Huski.FairLaunch.Custody
import Huski.FairLaunch.StakeFlow
import Huski.FairLaunch.Division
import Huski.FairLaunch.Schedule
import Huski.FairLaunch.Points
import Huski.FairLaunch.Solvency
import Huski.FairLaunch.Bonus
import Huski.FairLaunchV2.Model
import Huski.FairLaunchV2.Interface
import Huski.FairLaunchV2.Spec
import Huski.FairLaunchV2.Run
import Huski.FairLaunchV2.Debts
import Huski.FairLaunchV2.Emission
import Huski.FairLaunchV2.Funders
import Huski.FairLaunchV2.Payment
import Huski.FairLaunchV2.View
import Huski.Badge.Tokens
import Huski.Badge.Relayer
import Huski.Badge.Grades
import Huski.Badge.Consent
import Huski.Badge.Codes
import Huski.Badge.Locks
import Huski.Badge.Bonus
import Huski.Badge.Referral
import Huski.Stronk.Model
import Huski.Stronk.Custody
import Huski.Stronk.Principal
import Huski.Stronk.Release
import Huski.Stronk.Harvest
import Huski.Stronk.HarvestAll
import Huski.Stronk.Schedule
import Huski.Worker.Stake
import Huski.Worker.Config
import Huski.Worker.PancakeswapV2
import Huski.Worker.LpLedger
import Huski.Worker.CakeMaxi
import Huski.Worker.CakeRewards
import Huski.Dao.Model
import Huski.Dao.Payments
import Huski.Dao.Funding
import Huski.Lib.Scan
import Huski.Lib.Mirror
import Huski.Dao.Invitations
import Huski.Lib.EventLog
import Huski.Timelock.Model
import Huski.Timelock.History
import Huski.Lib.Bytes
import Huski.Lib.HashTree
import Huski.Merkle.Model
import Huski.Merkle.Tree
import Huski.Merkle.Claims
import Huski.Pancake.Router
import Huski.Worker.Health
import Huski.Worker.Allowances
import Huski.Lib.Newton
import Huski.Utils.HuskyMath
import Huski.Strategy.OptimalDeposit
import Huski.Pancake.Trades
import Huski.Strategy.Model
import Huski.Strategy.Leftovers
import Huski.Strategy.MinimizeTrading
import Huski.Worker.Migrate
import Huski.Oracle.ChainLink
import Huski.Farm.DebtPool
import Huski.Farm.Model
import Huski.Farm.StakeMirror
import Huski.Farm.VaultCalls
import Huski.Farm.DebtMirror
import Huski.Lib.RewardBook
import Huski.Lib.BEP20
import Huski.MasterChef.Model
import Huski.Lib.Flows
import Huski.MasterChef.Spec
import Huski.MasterChef.Points
import Huski.MasterChef.Custody
import Huski.MasterChef.Shortfall
import Huski.MasterChef.WorkerStake
import Huski.Merkle.Airdrop
import Huski.Lib.MessageCalls
import Huski.Lib.CallData
import Huski.Upgradeable.Model
import Huski.Upgradeable.Administration
import Huski.Upgradeable.Transparency
import Huski.Oracle.SimplePrice
import Huski.Oracle.Stability
import Huski.Oracle.VaultGate
import Huski.Shield.Model
import Huski.Shield.Keeps
import Huski.Shield.Warchest
import Huski.Lib.ConstantProduct
import Huski.Pancake.FeeOnTransfer
import Huski.Pancake.Product
import Huski.Pancake.RoundTrip
import Huski.Token.Delegates
