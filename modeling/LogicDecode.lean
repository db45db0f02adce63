import LogicDecode.Decimal.Fixed
import LogicDecode.Main
import LogicDecode.Trial.Decoders
import LogicDecode.Trial.Script
import LogicDecode.Proofs.Cuts
import LogicDecode.Proofs.Samplers
import LogicDecode.Proofs.HexWord
import LogicDecode.Proofs.SpiMeaning
import LogicDecode.Proofs.Happenings
import LogicDecode.Proofs.Levels
import LogicDecode.Proofs.Steady
import LogicDecode.Proofs.DeliveryRun
import LogicDecode.Proofs.SessionLogs
import LogicDecode.Proofs.OfferOrder
import LogicDecode.Proofs.Layers
import LogicDecode.Proofs.Assigned
import LogicDecode.Proofs.Chains
import LogicDecode.Proofs.Opening
import LogicDecode.Proofs.Storing
import LogicDecode.Proofs.Feeding
import LogicDecode.Proofs.Capturing
import LogicDecode.Proofs.RowKeys
import LogicDecode.Proofs.Filing
import LogicDecode.Proofs.WorkerMoves
import LogicDecode.Proofs.Progress
import LogicDecode.Proofs.Orderly
import LogicDecode.Proofs.Clearing
import LogicDecode.Proofs.Scanning
import LogicDecode.Proofs.Serving
import LogicDecode.Proofs.Handing
import LogicDecode.Proofs.Inboxes
import LogicDecode.Proofs.Notices
import LogicDecode.Proofs.Advances
import LogicDecode.Proofs.Timely
import LogicDecode.Proofs.Recording
import LogicDecode.Proofs.ParallelMeaning
import LogicDecode.Proofs.Oversize
import LogicDecode.Proofs.Recasting
import LogicDecode.Proofs.FreshRuns
import LogicDecode.Proofs.Taping
import LogicDecode.Proofs.FirstErrors
import LogicDecode.Proofs.ChunkEnds
import LogicDecode.Proofs.ChunkSizes
import LogicDecode.Proofs.Forests
import LogicDecode.Proofs.OwnUnits
import LogicDecode.Proofs.RangeQueries
import LogicDecode.Proofs.RowTables
import LogicDecode.Proofs.CallStacks
import LogicDecode.Proofs.SessionCalls
import LogicDecode.Proofs.Visible
import LogicDecode.Proofs.Backing
import LogicDecode.Proofs.HeaderLines
import LogicDecode.Proofs.NewFrames
import LogicDecode.Proofs.Conditions
import LogicDecode.Proofs.Constructing
import LogicDecode.Proofs.Growth
import LogicDecode.Proofs.Subscriptions
import LogicDecode.Proofs.Probes
import LogicDecode.Proofs.Drawn
import LogicDecode.Proofs.Words
import LogicDecode.Proofs.Printing
