import Cexp.Grammar.Placeholder
import Cexp.Grammar.Redir
import Cexp.Syms.Namecomp
import Cexp.Syms.Squeeze
import Cexp.Syms.Lookup
import Cexp.Modules.Bitmap
import Cexp.Modules.Record
import Cexp.Modules.Link
import Cexp.Modules.Bound
import Cexp.Modules.Store
import Cexp.Modules.Invariant
import Cexp.Modules.Consistency
import Cexp.Modules.Dependency
import Cexp.Modules.Nested
import Cexp.Lib.Loop
import Cexp.Pmelf.Bytes
import Cexp.Pmelf.Reader
import Cexp.Pmelf.Format
import Cexp.Pmelf.Inside
import Cexp.Pmelf.Table
import Cexp.Pmelf.Repeated
import Cexp.Pmelf.Decode
import Cexp.Lib.Memory
import Cexp.Reloc.Entry
import Cexp.Reloc.X86
import Cexp.Reloc.Powerpc
import Cexp.Reloc.Sparc
import Cexp.Reloc.Bounds
import Cexp.Lib.Layout
import Cexp.Linker.Sections
import Cexp.Lib.Wrap
import Cexp.Linker.Commons
import Cexp.Modules.Resolve
import Cexp.Linker.Weak
import Cexp.Lib.Ring
import Cexp.Linker.Groups
import Cexp.Modules.Tables
import Cexp.Modules.Unloads
import Cexp.Modules.Unique
import Cexp.Lib.Run
import Cexp.Lock.RWLock
import Cexp.Ctyps.Arith
import Cexp.Lock.Writers
import Cexp.Ctyps.Total
import Cexp.Ctyps.Accepts
import Cexp.Lib.Interchange
import Cexp.Ctyps.Implicit
import Cexp.Grammar.Compound
import Cexp.Lib.Linked
import Cexp.Vars.Store
import Cexp.Vars.Invariant
import Cexp.Vars.Calls
import Cexp.Vars.Refine
import Cexp.Vars.Interning
import Cexp.Lib.Image
import Cexp.Pmelf.Records
import Cexp.Pmelf.Codec
import Cexp.Pmelf.RoundTrip
import Cexp.Pmelf.Tables
import Cexp.Pmelf.ReadBack
import Cexp.Xsyms.CopySymtab
import Cexp.Xsyms.SymtabFile
import Cexp.Xsyms.Preserved
import Cexp.Modules.Ids
import Cexp.Syms.Address
import Cexp.Syms.Bisect
import Cexp.Modules.Help
import Cexp.Modules.Paging
import Cexp.Ctyps.Pointers
import Cexp.Syms.Extend
import Cexp.Ctyps.Calls
import Cexp.Lib.Window
import Cexp.Modules.AddrRange
import Cexp.Modules.AddrLoops
import Cexp.Modules.AddrWindow
import Cexp.Grammar.Lexer
import Cexp.Lib.Cursor
import Cexp.Grammar.LexerCursor
import Cexp.Grammar.LexerBuffer
import Cexp.Lib.Fill
import Cexp.Syms.Accumulate
import Cexp.Shell.Getp
import Cexp.Shell.Script
import Cexp.Shell.Prompt
import Cexp.Shell.Search
import Cexp.Shell.Readline
import Cexp.Pmelf.Match
import Cexp.Pmelf.Values
import Cexp.Pmelf.Relocs
import Cexp.Pmelf.Names
import Cexp.Pmelf.Leb128
import Cexp.Syms.LinkMap
import Cexp.Lib.Exchange
import Cexp.Linker.Ctors
import Cexp.Lib.Trace
import Cexp.Grammar.Atomic
import Cexp.Shell.Ans
import Cexp.Lib.Patch
import Cexp.Reloc.Backend
import Cexp.Linker.Loaded
import Cexp.Grammar.Meaning
import Cexp.Grammar.Transparent
import Cexp.Modules.Teardown
import Cexp.Modules.Concurrent
import Cexp.Modules.Progress
import Cexp.Linker.FileImage
import Cexp.Lib.Heap
import Cexp.Linker.Segments
import Cexp.Linker.Load
import Cexp.Modules.Memory
import Cexp.Grammar.ShortCircuit
