import LineScript.FileTree
import LineScript.Main
import LineScript.Proofs.Tree
import LineScript.Proofs.Session
import LineScript.Proofs.Recovery
import LineScript.Proofs.Output
import LineScript.Proofs.LargerNamespace
import LineScript.Proofs.LimitedOutput
import LineScript.Proofs.Calls
import LineScript.Proofs.Lasting
import LineScript.Proofs.Scanner
import LineScript.Proofs.Sequences
import LineScript.Proofs.Stream
import LineScript.Proofs.Lookahead
import LineScript.Proofs.Rounds
import LineScript.Proofs.Continuation
import LineScript.Proofs.Agreement
import LineScript.Proofs.Spelling
import LineScript.Proofs.Loading
import LineScript.Proofs.Course
import LineScript.Proofs.SpelledValues
import LineScript.Proofs.LimitedSession
import LineScript.Proofs.WellFormed
import LineScript.Proofs.Quoting
import LineScript.Proofs.Nesting
import LineScript.Proofs.Batch
import LineScript.Proofs.Ascii
import LineScript.Proofs.Layout
import LineScript.Proofs.Parameters
import LineScript.Proofs.Numerals
import LineScript.Proofs.Matching
import LineScript.Proofs.Skipping
import LineScript.Proofs.Rounding
import LineScript.Proofs.WrittenValue
import LineScript.Proofs.Comparing
import LineScript.Proofs.SignificantDigits
import LineScript.Proofs.ShortestDigits
import LineScript.Proofs.ReadBack
