import StackScript.Main
import StackScript.Proofs.Compiler.Acceptance
import StackScript.Proofs.Compiler.Bare
import StackScript.Proofs.Machine.Budget
import StackScript.Proofs.Session.Conditionals
import StackScript.Proofs.Session.Consistency
import StackScript.Proofs.Session.Incremental
import StackScript.Proofs.Syntax.Completeness
import StackScript.Proofs.Compiler.Assignments
import StackScript.Proofs.Machine.Slots
import StackScript.Proofs.Compiler.Rebinding
import StackScript.Proofs.Machine.Variables
import StackScript.Proofs.Compiler.Parts
import StackScript.Proofs.Session.Frames
import StackScript.Proofs.Machine.Isolation
import StackScript.Proofs.Code.Decoding
import StackScript.Proofs.Code.Scripts
import StackScript.Proofs.Syntax.Errors
import StackScript.Proofs.Syntax.Nodes
import StackScript.Proofs.Syntax.Spans
import StackScript.Proofs.Text.Bytes
import StackScript.Proofs.Code.Listing
import StackScript.Proofs.Token.Printing
import StackScript.Proofs.Number.Equality
import StackScript.Proofs.Value.Construction
import StackScript.Proofs.Value.Equality
import StackScript.Proofs.Token.Boundaries
import StackScript.Proofs.Compiler.Tracking
import StackScript.Proofs.Compiler.Watch
import StackScript.Proofs.Compiler.Moments
