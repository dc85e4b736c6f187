import OverlapLayout.Decimal.Shortest
import OverlapLayout.Decimal.Text
import OverlapLayout.Decimal.Read
import OverlapLayout.Error
import OverlapLayout.Seed.Nucleotide
import OverlapLayout.Seed.Mix
import OverlapLayout.Seed.Rolling
import OverlapLayout.Seed.Hit
import OverlapLayout.Seed.HitTable
import OverlapLayout.Seed.Minimizer
import OverlapLayout.Seed.Index
import OverlapLayout.Stats.Basic
import OverlapLayout.Stats.Running
import OverlapLayout.Stats.Gamma
import OverlapLayout.Stats.Distributions
import OverlapLayout.Stats.Normal
import OverlapLayout.Stats.NStats
import OverlapLayout.Graph.Relationship
import OverlapLayout.Scoring
import OverlapLayout.Config.Basic
import OverlapLayout.Discovery.Chain
import OverlapLayout.Discovery.Placement
import OverlapLayout.Graph.UnionFind
import OverlapLayout.Graph.Path
import OverlapLayout.Graph.Basic
import OverlapLayout.Graph.Walk
import OverlapLayout.Graph.Cleanup
import OverlapLayout.Graph.Select
import OverlapLayout.Graph.Scores
import OverlapLayout.Graph.Status
import OverlapLayout.Layout.Position
import OverlapLayout.Layout.Connect
import OverlapLayout.Layout.Merge
import OverlapLayout.Layout.Find
import OverlapLayout.Toml.Value
import OverlapLayout.Toml.Text
import OverlapLayout.Toml.Scalar
import OverlapLayout.Toml.Document
import OverlapLayout.Config.Toml
import OverlapLayout.Assembly.Read
import OverlapLayout.Assembly.Builder
import OverlapLayout.Proofs.Graph.Arena
import OverlapLayout.Proofs.Graph.Records
import OverlapLayout.Proofs.Graph.Invariant
import OverlapLayout.Proofs.Graph.Shape
import OverlapLayout.Proofs.Graph.Chimeric
import OverlapLayout.Proofs.Paths.Candidates
import OverlapLayout.Proofs.Paths.Walks
import OverlapLayout.Proofs.Paths.Chains
import OverlapLayout.Proofs.Paths.UnionFind
import OverlapLayout.Proofs.Paths.Partners
import OverlapLayout.Proofs.Paths.Build
import OverlapLayout.Proofs.Paths.Cover
import OverlapLayout.Proofs.Paths.Forest
import OverlapLayout.Proofs.Layout.Status
import OverlapLayout.Proofs.Layout.Absorb
import OverlapLayout.Proofs.Layout.Trees
import OverlapLayout.Proofs.Layout.Pairing
import OverlapLayout.Proofs.Layout.Merging
import OverlapLayout.Proofs.Layout.Stored
import OverlapLayout.Proofs.Layout.Run
import OverlapLayout.Proofs.Seed.Window
import OverlapLayout.Proofs.Seed.Kmer
import OverlapLayout.Proofs.Seed.Selection
import OverlapLayout.Proofs.Seed.Scan
import OverlapLayout.Proofs.Seed.Hits
import OverlapLayout.Proofs.Seed.HitLog
import OverlapLayout.Proofs.Seed.Search
import OverlapLayout.Proofs.Discovery.Chains
import OverlapLayout.Proofs.Discovery.Clusters
import OverlapLayout.Proofs.Discovery.Classify
import OverlapLayout.Proofs.Discovery.Best
import OverlapLayout.Proofs.Float.Sign
import OverlapLayout.Proofs.Discovery.Outcome
import OverlapLayout.Proofs.Discovery.Geometry
import OverlapLayout.Proofs.Discovery.Mirror
import OverlapLayout.Proofs.Assembly.Faults
import OverlapLayout.Proofs.Assembly.Built
import OverlapLayout.Proofs.Graph.History
import OverlapLayout.Proofs.Layout.Connecting
import OverlapLayout.Proofs.Seed.Mixing
import OverlapLayout.Proofs.Graph.Detach
import OverlapLayout.Proofs.Graph.Cheapest
import OverlapLayout.Proofs.Graph.Prune
import OverlapLayout.Proofs.Float.Scale
import OverlapLayout.Proofs.Graph.Placement
import OverlapLayout.Proofs.Graph.Filter
import OverlapLayout.Proofs.Seed.Codec
import OverlapLayout.Proofs.Seed.Complement
import OverlapLayout.Proofs.Stats.Contiguity
import OverlapLayout.Proofs.Discovery.Optimal
import OverlapLayout.Proofs.Seed.Packing
import OverlapLayout.Proofs.Paths.EdgeWalk
import OverlapLayout.Proofs.Layout.Junctions
import OverlapLayout.Proofs.Float.Order
import OverlapLayout.Proofs.Stats.Welford
import OverlapLayout.Proofs.Paths.Classes
import OverlapLayout.Proofs.Seed.Reading
