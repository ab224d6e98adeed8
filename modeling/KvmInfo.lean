import KvmInfo.Library.Backtrack
import KvmInfo.Go.Unicode
import KvmInfo.GoVersion.Version
import KvmInfo.Library.PaddedLex
import KvmInfo.GoVersion.Order
import KvmInfo.GoVersion.Parse
import KvmInfo.GoVersion.Grammar
import KvmInfo.VersionInfo.Check
import KvmInfo.VersionInfo.OsRelease
import KvmInfo.VersionInfo.Run
import KvmInfo.VersionInfo.Whitelist
import KvmInfo.VersionInfo.Kernel
import KvmInfo.GoVersion.Parts
import KvmInfo.VersionInfo.BoundLaws
import KvmInfo.Caps.Memory
import KvmInfo.Caps.Scan
import KvmInfo.Caps.Flags
import KvmInfo.Caps.Labels
import KvmInfo.Caps.KernelIo
import KvmInfo.Caps.HostScan
import KvmInfo.Caps.Descriptors
import KvmInfo.Caps.FlagRuns
import KvmInfo.Caps.MockIo
import KvmInfo.Caps.MockScan
import KvmInfo.Library.Traced
import KvmInfo.Caps.Accesses
import KvmInfo.Caps.Lookups
import KvmInfo.Caps.MsrQuery
import KvmInfo.Go.Utf8
import KvmInfo.VersionInfo.Sanitize
import KvmInfo.Toml.Lexer
import KvmInfo.Toml.Keys
import KvmInfo.Toml.Values
import KvmInfo.Library.Hoare
import KvmInfo.Library.Fuel
import KvmInfo.Toml.Tokens
import KvmInfo.Toml.Parser
import KvmInfo.Toml.Trees
import KvmInfo.Toml.Parsed
import KvmInfo.Toml.Fuel
import KvmInfo.Toml.Lexemes
import KvmInfo.Toml.Documents
import KvmInfo.Toml.Written
import KvmInfo.Toml.Sections
import KvmInfo.Toml.Headers
import KvmInfo.Toml.Unterminated
import KvmInfo.Toml.Printed
import KvmInfo.Toml.Ucs
import KvmInfo.Toml.Lookup
import KvmInfo.Toml.ParseFile
import KvmInfo.Toml.Strings
import KvmInfo.Toml.Literals
import KvmInfo.Toml.Stamps
import KvmInfo.Toml.Integers
import KvmInfo.Caps.MockFile
import KvmInfo.Caps.Program
import KvmInfo.VersionInfo.OsReleaseFormat
import KvmInfo.VersionInfo.Program
import KvmInfo.Caps.Frames
import KvmInfo.Caps.HeapBalance
import KvmInfo.Caps.MockTable
