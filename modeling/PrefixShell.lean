import PrefixShell.Main
import PrefixShell.Proofs.Token.Partition
import PrefixShell.Proofs.Trie.Arena
import PrefixShell.Proofs.Trie.Traversal
import PrefixShell.Proofs.Trie.NameSet
import PrefixShell.Proofs.Command.Shape
import PrefixShell.Proofs.Token.Sequence
import PrefixShell.Proofs.Command.Placement
import PrefixShell.Proofs.Command.ReadBack
import PrefixShell.Proofs.Resolver.Refinement
import PrefixShell.Proofs.Token.Unclosed
import PrefixShell.Proofs.Token.Locality
import PrefixShell.Proofs.Word.Parting
import PrefixShell.Proofs.Command.Verdict
import PrefixShell.Proofs.Command.Leading
import PrefixShell.Proofs.Command.TypedWords
import PrefixShell.Proofs.Command.Surroundings
import PrefixShell.Proofs.Shell.Dispatch
import PrefixShell.Proofs.Shell.Reached
import PrefixShell.Proofs.Shell.Abbreviation
import PrefixShell.Proofs.SearchPath.Lookup
import PrefixShell.Proofs.SearchPath.Agreement
import PrefixShell.Proofs.FileSystem.Canonical
import PrefixShell.Proofs.Shell.Effect
import PrefixShell.Proofs.Shell.Known
import PrefixShell.Proofs.Shell.Directory
import PrefixShell.Proofs.Shell.Frame
import PrefixShell.Proofs.Shell.Loop
import PrefixShell.Proofs.Command.BareLine
import PrefixShell.Proofs.Shell.Diagnostic
import PrefixShell.Proofs.Word.Substitution
import PrefixShell.Proofs.Command.Grouping
import PrefixShell.Proofs.Command.Arguments
import PrefixShell.Proofs.Command.Asking
import PrefixShell.Proofs.Glob.Splicing
import PrefixShell.Proofs.Glob.Values
import PrefixShell.Proofs.SearchPath.Slashed
import PrefixShell.Proofs.Command.Terminator
import PrefixShell.Proofs.Command.JoinedOption
import PrefixShell.Proofs.Command.SeparateValue
import PrefixShell.Proofs.Token.Quotation
import PrefixShell.Proofs.Token.Restart
import PrefixShell.Proofs.Resolver.Registration
import PrefixShell.Proofs.Resolver.Narrowing
import PrefixShell.Proofs.Command.Tables
import PrefixShell.Proofs.Token.Draining
import PrefixShell.Proofs.Trie.Paths
import PrefixShell.Proofs.Word.Pattern
