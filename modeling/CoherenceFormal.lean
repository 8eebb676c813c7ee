import CoherenceFormal.BlockingCores
import CoherenceFormal.SingleWriter
import CoherenceFormal.DragonStores
import CoherenceFormal.UpgradeRace
import CoherenceFormal.SetCapacity
import CoherenceFormal.DirtyData
import CoherenceFormal.GrantedLines
import CoherenceFormal.Arbitration
import CoherenceFormal.RunCompletion
import CoherenceFormal.Calls
import CoherenceFormal.ProtocolSimulation
import CoherenceFormal.NoSharing
import CoherenceFormal.PrivateRuns
import CoherenceFormal.SetOperations
import CoherenceFormal.Shared.Recency
import CoherenceFormal.Locality
import CoherenceFormal.ExactSets
import CoherenceFormal.StoreOwnership
import CoherenceFormal.AccessCost
import CoherenceFormal.InvalidFrames
import CoherenceFormal.LruOrder
import CoherenceFormal.StackDistance
import CoherenceFormal.AddressSplit
import CoherenceFormal.Shared.IntegerStream
import CoherenceFormal.Shared.Projection
import CoherenceFormal.TraceFile
import CoherenceFormal.Makespan
import CoherenceFormal.CounterWidths
import CoherenceFormal.Shared.Reordering
import CoherenceFormal.SetIndependence
import CoherenceFormal.Shared.Contents
import CoherenceFormal.DataValues
import CoherenceFormal.PerformedStores
import CoherenceFormal.LruHits
import CoherenceFormal.ReadPriority
import CoherenceFormal.Shared.SerialMemory
import CoherenceFormal.SequentialConsistency
import CoherenceFormal.Shared.PrintedText
import CoherenceFormal.Report
import CoherenceFormal.Program
import CoherenceFormal.Shared.Simulation
import CoherenceFormal.Shared.Renaming
import CoherenceFormal.BlockRenaming
import CoherenceFormal.AddressPattern
import CoherenceFormal.CopyLedger
import CoherenceFormal.FittingCaches
