import Lfsc.PiFormation
import Lfsc.SymbolScope
import Lfsc.CommandFrame
import Lfsc.Exec.Lockstep
import Lfsc.Exec.Refines
import Lfsc.FunctionCache
import Lfsc.ExprTrie
import Lfsc.SideCondition.Activation
import Lfsc.SideCondition.Constructs
import Lfsc.SideCondition.Matching
import Lfsc.SideCondition.Refinement
import Lfsc.CodeWrites
import Lfsc.HoleAccounts
import Lfsc.HoleFilling
import Lfsc.Comparison
import Lfsc.Modes
import Lfsc.RunPremises
import Lfsc.Marks
import Lfsc.WeakHead
import Lfsc.Aliases
import Lfsc.Trie
import Lfsc.CodeReading
import Lfsc.ExactArithmetic
import Lfsc.PatternArity
import Lfsc.Clones
import Lfsc.RigidRuns
import Lfsc.ReferenceCount
import Lfsc.ScannedTokens
import Lfsc.SourcePosition
import Lfsc.Layout
import Lfsc.Occurrence
import Lfsc.Lookahead.Files
import Lfsc.Lookahead.Accounting
import Lfsc.Chunks
import Lfsc.CountedRuns
import Lfsc.GmpRuns
import Lfsc.Compiled.Programs
