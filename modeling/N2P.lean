import N2P.Lib.Bytes
import N2P.Lib.ByteSink
import N2P.Lib.Dremel
import N2P.Lib.Preorder
import N2P.Lib.Outcome
import N2P.Lib.Emission
import N2P.Lib.Relational
import N2P.Lib.Extremes
import N2P.Lib.Resumable
import N2P.Parquet
import N2P.Arrow
import N2P.Schema
import N2P.Shredder
import N2P.PageBodies
import N2P.Pages
import N2P.Writer
import N2P.ColumnKinds
import N2P.SchemaTree
import N2P.SchemaAgreement
import N2P.Paths
import N2P.Visits
import N2P.RoundTrip
import N2P.ValueReader
import N2P.PlainValues
import N2P.StringValues
import N2P.ValuePages
import N2P.Effects
import N2P.Chunks
import N2P.Builds
import N2P.Batches
import N2P.Records
import N2P.Reference
import N2P.FileLayout
import N2P.LeafPositions
import N2P.CodecLabels
import N2P.LockedSchema
import N2P.Lockstep
import N2P.FailedBatch
import N2P.Refusals
import N2P.Nulls
import N2P.Slices
import N2P.SchemaCalls
import N2P.LevelStreams
import N2P.Bounds
import N2P.FlatWalk
import N2P.PageFraming
import N2P.StringSizes
import N2P.PagePlans
import N2P.PageLengths
import N2P.StoredCounts
import N2P.Statistics
import N2P.SchemaAcceptance
import N2P.Columnar
import N2P.Soa
import N2P.SoaBuffers
import N2P.SoaDenotes
import N2P.SoaBounds
import N2P.SoaFormats
import N2P.SoaOffsets
import N2P.SoaMasks
import N2P.SoaRuns
import N2P.SoaPaths
import N2P.Twins
import N2P.Closing
import N2P.WriteFile
import N2P.PythonWriters
import N2P.PythonSessions
import N2P.TableBlocks
import N2P.NumpyExport
import N2P.NumpyFiles
import N2P.CaptureStitching
import N2P.FileReader
import N2P.LeafColumns
import N2P.DenotedTables
import N2P.Devices
import N2P.ReadBack
import N2P.Settings
import N2P.TypedFiles
import N2P.SoaFiles
import N2P.FlatTables
import N2P.Streaming
import N2P.PduTables
import N2P.Converter
import N2P.WindowSizes
