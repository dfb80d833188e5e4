import RubixDb.Proof.LostUpdate
import RubixDb.Proof.Numbering
import RubixDb.Proof.Merge
import RubixDb.Proof.Cycles
import RubixDb.Proof.Snapshots
import RubixDb.Proof.Agreement
import RubixDb.Proof.KeyRanges
import RubixDb.Proof.DirectRuns
import RubixDb.Proof.RollbackExact
import RubixDb.Proof.UniqueNotions
import RubixDb.Proof.FsyncLoss
import RubixDb.Proof.AnsweredOnce
import RubixDb.Proof.TornTail
import RubixDb.Proof.MidLogDamage
import RubixDb.Proof.LeastFixpoint
import RubixDb.Proof.SumOrders
import RubixDb.Proof.ScanReads
import RubixDb.Proof.LikeCost
import RubixDb.Proof.ThreeValued
import RubixDb.Proof.DistinctOrder
import RubixDb.Proof.TableSize
import RubixDb.Proof.SegmentFiles
import RubixDb.Proof.Ntile
import RubixDb.Proof.Recovered
