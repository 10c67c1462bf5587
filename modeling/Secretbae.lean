import Secretbae.Core.Seal
import Secretbae.Lib.HashChain
import Secretbae.Audit.Tamper
import Secretbae.Audit.Forgery
import Secretbae.Cli.AuditVerify
import Secretbae.Audit.Concurrent
import Secretbae.Store.Runs
import Secretbae.Store.Openable
import Secretbae.Store.Relocation
import Secretbae.Store.Current
import Secretbae.Store.Retention
import Secretbae.Store.Allocation
import Secretbae.Store.Migration
import Secretbae.Store.Attachment
import Secretbae.Daemon.Concurrency
import Secretbae.Daemon.LockOrder
import Secretbae.Service.Authority
import Secretbae.Service.Batch
import Secretbae.Service.Hidden
import Secretbae.Service.Recorded
import Secretbae.Service.Revocation
import Secretbae.Service.RoundTrip
import Secretbae.Service.Merging
import Secretbae.Service.Lifetime
import Secretbae.Service.ResolveResponse
import Secretbae.Audit.Ambiguity
import Secretbae.Audit.FirstBad
import Secretbae.Policy.Matching
import Secretbae.Store.TokenText
import Secretbae.Store.TagRuns
import Secretbae.Store.Crash
import Secretbae.Cli.Exec
import Secretbae.Service.BundleForm
import Secretbae.Store.Meta
import Secretbae.Daemon.Startup
import Secretbae.Cli.App
import Secretbae.Cli.Browser
import Secretbae.Cli.ChildEnv
import Secretbae.Cli.Response
import Secretbae.Cli.Duration
import Secretbae.Service.Confinement
import Secretbae.Service.Accounting
import Secretbae.Store.Refinement
import Secretbae.Service.Linear
import Secretbae.Daemon.Files
import Secretbae.Daemon.Launch
import Secretbae.Lib.Codec
import Secretbae.Proto.Codecs
import Secretbae.Service.Lives
import Secretbae.Service.Messages
import Secretbae.Cli.Client
