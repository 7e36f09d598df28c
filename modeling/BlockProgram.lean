import BlockProgram.Block.Detach
import BlockProgram.Code.Program
import BlockProgram.CommandLine.Run
import BlockProgram.Document.Read
import BlockProgram.Document.Write
import BlockProgram.Generate
import BlockProgram.Host.Channel
import BlockProgram.Main
import BlockProgram.Proofs.Document.RoundTrip
import BlockProgram.Proofs.Session.Log
import BlockProgram.Proofs.Session.Names
import BlockProgram.Session
import BlockProgram.Workspace.Edit
import BlockProgram.Proofs.Code.Handles
import BlockProgram.Proofs.Code.Arrangement
import BlockProgram.Proofs.Code.Brackets
import BlockProgram.Proofs.Workspace.Migration
import BlockProgram.Proofs.Session.Refusal
import BlockProgram.Proofs.Code.Nesting
import BlockProgram.Proofs.Code.Layout
import BlockProgram.Proofs.Xml.Legible
import BlockProgram.Proofs.Document.Legible
import BlockProgram.Proofs.Session.Restore
import BlockProgram.Proofs.Workspace.References
import BlockProgram.Proofs.Workspace.Capture
import BlockProgram.Proofs.Code.Arithmetic
import BlockProgram.Proofs.Code.Texts
import BlockProgram.Proofs.Code.Regrouping
import BlockProgram.Proofs.Number.Nearest
import BlockProgram.Proofs.CommandLine.Directory
import BlockProgram.Proofs.CommandLine.Agreement
import BlockProgram.Proofs.Document.Normal
import BlockProgram.Proofs.Document.VisualOrder
import BlockProgram.Proofs.Document.Acceptance
import BlockProgram.Proofs.Block.Exchange
import BlockProgram.Proofs.Block.Seats
import BlockProgram.Proofs.Workspace.Removal
import BlockProgram.Proofs.Workspace.Moving
import BlockProgram.Proofs.Block.Pruning
import BlockProgram.Proofs.Workspace.Pruning
import BlockProgram.Proofs.Workspace.Renaming
import BlockProgram.Proofs.Document.Declarations
import BlockProgram.Proofs.Code.Quotation
import BlockProgram.Proofs.Code.Numbers
import BlockProgram.Proofs.Workspace.Outcome
import BlockProgram.Proofs.Workspace.Refusal
import BlockProgram.Proofs.Document.Foreign
import BlockProgram.Proofs.Workspace.Paths
import BlockProgram.Proofs.Minting
import BlockProgram.Proofs.Identifier.Pattern
