import FileFerry.Posix.Parent
import FileFerry.Results.Writes
import FileFerry.Results.Files
import FileFerry.Results.Transfer
import FileFerry.Source.Date
import FileFerry.Support.Calendar
import FileFerry.Results.Keys
import FileFerry.Results.Boot
import FileFerry.Results.Dates
import FileFerry.Results.Envelope
import FileFerry.Results.Tracing
import FileFerry.Posix.Lexical
import FileFerry.Results.Aliases
import FileFerry.Results.Containment
import FileFerry.Results.Paging
import FileFerry.Results.Reopening
import FileFerry.Results.Sources
import FileFerry.Results.Clipping
import FileFerry.Results.Statuses
import FileFerry.Io.Polls
import FileFerry.Results.Grammar
import FileFerry.Results.Limiter
import FileFerry.Results.Minting
import FileFerry.Posix.Plain
import FileFerry.Posix.Same
import FileFerry.Results.Opening
import FileFerry.Results.Relocation
import FileFerry.Results.Store
import FileFerry.Io.Sessions
import FileFerry.Results.Concurrency
import FileFerry.Results.Links
import FileFerry.Results.Logbook
import FileFerry.Results.Secrets
import FileFerry.Posix.Raw
import FileFerry.Results.Masking
import FileFerry.Results.Offline
import FileFerry.Results.Warnings
import FileFerry.Io.Overlaps
import FileFerry.Results.Mixing
import FileFerry.Results.Servers
import FileFerry.Results.Success
import FileFerry.Results.Retries
import FileFerry.Results.Tours
