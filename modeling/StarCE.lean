import StarCE.Data.Ordered
import StarCE.Schema.EqualSet
import StarCE.Seq.Prefix
import StarCE.Seq.Hinge
import StarCE.Stat.DegreeSequence
import StarCE.Stat.Buckets
import StarCE.Stat.Compress
import StarCE.Stat.Compressed
import StarCE.Stat.DSStatistic
import StarCE.Stat.Limit
import StarCE.Manager.State
import StarCE.Manager.Collect
import StarCE.Manager.Counts
import StarCE.Stat.Tables
import StarCE.Data.Loop
import StarCE.Data.Json
import StarCE.Manager.Collected
import StarCE.Join.Star
import StarCE.Stat.Sketch
import StarCE.Join.StarStat
import StarCE.Join.Pivot
import StarCE.Join.Tight
import StarCE.Join.RowCount
import StarCE.Stat.Align
import StarCE.Stat.Merge
import StarCE.Seq.Deal
import StarCE.Stat.Stream
import StarCE.Manager.Query
import StarCE.Stat.Center
import StarCE.Join.StarSplit
import StarCE.Data.Partition
import StarCE.Manager.Classes
import StarCE.Manager.Lookup
import StarCE.Stat.Conserve
import StarCE.Manager.Session
import StarCE.Manager.ClassStats
import StarCE.Stat.Adjust
import StarCE.Manager.Filters
import StarCE.Manager.Relations
import StarCE.Manager.Estimate
import StarCE.Join.StarExact
import StarCE.Stat.Average
import StarCE.Manager.Weighted
import StarCE.Manager.Blend
import StarCE.Manager.Serialize
import StarCE.Manager.Restore
import StarCE.Stat.Scale
import StarCE.Stat.Averaged
import StarCE.Manager.TwoStars
import StarCE.Manager.MachineInts
import StarCE.Manager.Recorder
import StarCE.Manager.Renaming
import StarCE.Stat.Ranks
import StarCE.Seq.Damped
import StarCE.Manager.Uniform
import StarCE.Data.Text
import StarCE.Data.Forest
import StarCE.Remap.Signature
import StarCE.Remap.Presentation
import StarCE.Remap.Reading
import StarCE.Remap.Invariance
import StarCE.Data.Incidence
import StarCE.Manager.Components
import StarCE.Manager.Independent
import StarCE.Seq.Counted
import StarCE.Stat.Bounds
import StarCE.Manager.QueryRows
import StarCE.Manager.UpperBound
import StarCE.Filter.Predicates
import StarCE.Filter.Conjuncts
