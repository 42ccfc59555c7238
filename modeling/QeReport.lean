import QeReport.Lib.Text
import QeReport.Lib.JsMap
import QeReport.Lib.GuardedLog
import QeReport.Lib.Fresh
import QeReport.Lib.Json
import QeReport.Lib.JsonReading
import QeReport.Lib.JsonAlike
import QeReport.Lib.Forest
import QeReport.Lib.Calendar
import QeReport.Lib.Utf8
import QeReport.Lib.Base64
import QeReport.Lib.Sha256
import QeReport.Lib.Scan
import QeReport.Lib.Double
import QeReport.Lib.Disk
import QeReport.Lib.Pages
import QeReport.Protocol.Model
import QeReport.Protocol.Codec
import QeReport.Protocol.Writer
import QeReport.Validator.Canonical
import QeReport.Validator.Report
import QeReport.Validator.Feed
import QeReport.Validator.Finish
import QeReport.Validator.Log
import QeReport.Validator.Sessions
import QeReport.Validator.Tracking
import QeReport.Validator.Handlers
import QeReport.Validator.Refinement
import QeReport.Validator.Lines
import QeReport.Validator.Duplicates
import QeReport.Validator.Validity
import QeReport.Validator.Verdict
import QeReport.Validator.Lifecycle
import QeReport.Validator.Independence
import QeReport.ReadModel.Model
import QeReport.ReadModel.HistoryOrder
import QeReport.ReadModel.DateTime
import QeReport.ReadModel.Timeline
import QeReport.ReadModel.Stamp
import QeReport.ReadModel.Assembly
import QeReport.ReadModel.Projector
import QeReport.ReadModel.Projection
import QeReport.ReadModel.Facts
import QeReport.ReadModel.Faithful
import QeReport.ReadModel.Flakiness
import QeReport.ReadModel.Recomputed
import QeReport.Postgres.Archive
import QeReport.Postgres.Replay
import QeReport.Postgres.Fingerprint
import QeReport.Postgres.QueryIndex
import QeReport.Postgres.Storable
import QeReport.Protocol.RoundTrip
import QeReport.Protocol.Readable
import QeReport.Protocol.Scanner
import QeReport.Protocol.TypeScriptScan
import QeReport.Protocol.JavaCodec
import QeReport.Protocol.JavaScan
import QeReport.Protocol.Agreement
import QeReport.Protocol.Plain
import QeReport.Sdk.Redactor
import QeReport.Sdk.Session
import QeReport.Sdk.Steps
import QeReport.Sdk.JavaSession
import QeReport.Sdk.Outcome
import QeReport.Sdk.Twins
import QeReport.Sdk.Conformance
import QeReport.Sdk.FileSink
import QeReport.BlobStore.FileBlobStore
import QeReport.BlobStore.Integrity
import QeReport.BlobStore.ObjectListing
import QeReport.Postgres.Reclaim
import QeReport.Sdk.Graceful
import QeReport.Lib.JsonSchema
import QeReport.Protocol.EventSchema
import QeReport.Protocol.SchemaAccepted
import QeReport.Protocol.SchemaWritten
import QeReport.Validator.OneSession
import QeReport.Sdk.SafeName
import QeReport.Sdk.Writing
import QeReport.Http.Instants
import QeReport.Playwright.Mapping
import QeReport.Playwright.MediaType
import QeReport.Playwright.Reporter
import QeReport.Playwright.Bounded
import QeReport.Junit.Plan
import QeReport.Junit.Mapper
import QeReport.Junit.Reporter
import QeReport.Adapters.ScopePath
import QeReport.Lib.Regex
import QeReport.Lib.RegexRuns
import QeReport.Lib.Hiding
import QeReport.Lib.RegexAlike
import QeReport.Sdk.Rules
import QeReport.Sdk.NamedValues
import QeReport.Sdk.PrivateKeys
import QeReport.Sdk.Entries
import QeReport.Sdk.Shortfall
import QeReport.Sdk.TokenShortfall
import QeReport.Sdk.Lengthening
import QeReport.Playwright.WrittenText
import QeReport.Sdk.Secrets
import QeReport.Http.Roots
import QeReport.Http.Cursors
import QeReport.Postgres.ApiKeys
import QeReport.Postgres.EachLimited
import QeReport.Postgres.Maintenance
import QeReport.Lib.Slots
import QeReport.Postgres.Migrations
import QeReport.Postgres.Tables
import QeReport.Postgres.Archiving
import QeReport.Postgres.Writers
import QeReport.Postgres.Offers
import QeReport.Postgres.Once
import QeReport.Postgres.Answering
import QeReport.Postgres.Expiry
import QeReport.Postgres.Archivable
import QeReport.Postgres.Freshness
import QeReport.Postgres.Catalog
import QeReport.Postgres.Bytes
import QeReport.Postgres.HistoryRows
import QeReport.ReadModel.Accepted
import QeReport.Postgres.Queries
import QeReport.Http.Queries
import QeReport.Postgres.HistoryPages
import QeReport.Postgres.Gate
import QeReport.Postgres.Drift
import QeReport.Http.HistoryPages
import QeReport.Postgres.Sequences
import QeReport.Http.RunPages
import QeReport.Validator.Ledger
import QeReport.Playwright.Stream
import QeReport.Sdk.JavaWriting
import QeReport.Junit.Stream
