import SchemaOverlay.Main
import SchemaOverlay.Proofs.Traversal
import SchemaOverlay.Proofs.Edit.Export
import SchemaOverlay.Proofs.Overlay.Interference
import SchemaOverlay.Proofs.Overlay.Outcome
import SchemaOverlay.Proofs.Edit.Filing
import SchemaOverlay.Proofs.Edit.Loading
import SchemaOverlay.Proofs.Overlay.Reload
import SchemaOverlay.Proofs.Overlay.Instruction
import SchemaOverlay.Proofs.Overlay.Classification
import SchemaOverlay.Proofs.Edit.Content
import SchemaOverlay.Proofs.Sdl.Carried
import SchemaOverlay.Proofs.Overlay.Provenance
import SchemaOverlay.Proofs.Overlay.Leftover
import SchemaOverlay.Proofs.Edit.Collapse
import SchemaOverlay.Proofs.Overlay.Unedited
import SchemaOverlay.Proofs.Edit.Merging
import SchemaOverlay.Proofs.Edit.Gathering
import SchemaOverlay.Proofs.Sdl.Quoted
import SchemaOverlay.Proofs.Sdl.Block
import SchemaOverlay.Proofs.Sdl.Steady
import SchemaOverlay.Proofs.Number.Rounding
import SchemaOverlay.Proofs.Number.Shortest
import SchemaOverlay.Proofs.Text.Digits
import SchemaOverlay.Proofs.Sdl.Numeral
import SchemaOverlay.Proofs.Sdl.Piece
import SchemaOverlay.Proofs.Sdl.Layout
import SchemaOverlay.Proofs.Sdl.Formed
import SchemaOverlay.Proofs.Sdl.Yields
import SchemaOverlay.Proofs.Sdl.Reread
import SchemaOverlay.Proofs.Sdl.Reading
import SchemaOverlay.Proofs.Sdl.RoundTrip
import SchemaOverlay.Proofs.Overlay.Printable
import SchemaOverlay.Proofs.Overlay.Normal
import SchemaOverlay.Proofs.Overlay.Finish
import SchemaOverlay.Proofs.Edit.Listing
import SchemaOverlay.Proofs.Files.FileSystem
import SchemaOverlay.Proofs.Host
import SchemaOverlay.Proofs.Job
import SchemaOverlay.Proofs.Config.Inputs
import SchemaOverlay.Proofs.Config.Entries
import SchemaOverlay.Proofs.Config.Projects
import SchemaOverlay.Proofs.Config.Order
import SchemaOverlay.Proofs.Config.Finding
import SchemaOverlay.Proofs.Command.Run
import SchemaOverlay.Proofs.Command.Singly
import SchemaOverlay.Proofs.Edit.Algebra
import SchemaOverlay.Proofs.Edit.Refusal
import SchemaOverlay.Proofs.Edit.InPlace
import SchemaOverlay.Proofs.Overlay.Replay
import SchemaOverlay.Proofs.Overlay.Idempotence
import SchemaOverlay.Proofs.Sdl.Relabel
import SchemaOverlay.Proofs.Overlay.Undo
import SchemaOverlay.Proofs.Sdl.Position
import SchemaOverlay.Proofs.Overlay.Visit
import SchemaOverlay.Proofs.Files.Tree
import SchemaOverlay.Proofs.Files.Route
import SchemaOverlay.Proofs.Files.Above
import SchemaOverlay.Proofs.Files.Change
import SchemaOverlay.Proofs.Job.Effect
import SchemaOverlay.Proofs.Command.Alike
import SchemaOverlay.Proofs.Text.Utf8
import SchemaOverlay.Proofs.Sdl.Blank
import SchemaOverlay.Proofs.Overlay.Supply
