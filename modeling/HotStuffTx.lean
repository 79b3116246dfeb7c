import HotStuffTx.Lib.Triple
import HotStuffTx.Lib.Run
import HotStuffTx.Lib.Quorum
import HotStuffTx.Lib.Chained
import HotStuffTx.Consensus
import HotStuffTx.Replica
import HotStuffTx.Content
import HotStuffTx.Store
import HotStuffTx.Deliver
import HotStuffTx.Commit
import HotStuffTx.Calls
import HotStuffTx.Steps
import HotStuffTx.Integrity
import HotStuffTx.Votes
import HotStuffTx.System
import HotStuffTx.Safe
import HotStuffTx.Agreement
import HotStuffTx.Formation
import HotStuffTx.Tails
import HotStuffTx.HighTail
import HotStuffTx.App
import HotStuffTx.Client
import HotStuffTx.Accounts
import HotStuffTx.Payload
import HotStuffTx.Split
import HotStuffTx.Certificate
import HotStuffTx.Lib.Codec
import HotStuffTx.Wire
import HotStuffTx.Attempts
import HotStuffTx.Frozen
import HotStuffTx.Network
import HotStuffTx.Delivery
import HotStuffTx.Ordered
import HotStuffTx.Malformed
import HotStuffTx.Fetching
import HotStuffTx.Ledger
import HotStuffTx.Records
import HotStuffTx.Netem
import HotStuffTx.ClosedLoop
import HotStuffTx.Abandoned
import HotStuffTx.Generator
import HotStuffTx.Requests
import HotStuffTx.ClientLog
import HotStuffTx.Lib.LongestRun
import HotStuffTx.LogParser
import HotStuffTx.Report
import HotStuffTx.Stall
import HotStuffTx.Manual
import HotStuffTx.Leader
import HotStuffTx.Pipeline
import HotStuffTx.Slices
import HotStuffTx.Lib.Csv
import HotStuffTx.ResultFile
import HotStuffTx.Reconcile
import HotStuffTx.Appended
import HotStuffTx.Batches
import HotStuffTx.PacedSystem
import HotStuffTx.Validity
import HotStuffTx.NetSystem
import HotStuffTx.Outcomes
import HotStuffTx.VeriPool
import HotStuffTx.Service
import HotStuffTx.Resume
