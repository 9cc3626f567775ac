import KeyChart.Json.Layer
import KeyChart.Proofs.Text.Trim
import KeyChart.Proofs.Text.LineTable
import KeyChart.Proofs.Keymap.Bare
import KeyChart.Proofs.Keymap.Closed
import KeyChart.Proofs.Keymap.Visits
import KeyChart.Proofs.Keycode.Rules
import KeyChart.Proofs.Keycode.Wrappers
import KeyChart.Proofs.Keycode.Parts
import KeyChart.Proofs.Diagram.Labels
import KeyChart.Proofs.Diagram.Shape
import KeyChart.Proofs.Diagram.Enclosed
import KeyChart.Proofs.Diagram.Cells
import KeyChart.Proofs.Diagram.Grid
import KeyChart.Proofs.Diagram.Unread
import KeyChart.Proofs.Refresh.CommentAbove
import KeyChart.Proofs.Refresh.Plan
import KeyChart.Proofs.Refresh.Updates
import KeyChart.Proofs.Refresh.Spans
import KeyChart.Proofs.Refresh.Renewal
import KeyChart.Proofs.Refresh.Survivors
import KeyChart.Proofs.Refresh.Reach
import KeyChart.Proofs.Refresh.Survival
import KeyChart.Proofs.Refresh.Idempotence
import KeyChart.Proofs.Refresh.Removal
import KeyChart.Proofs.Refresh.Classification
import KeyChart.Proofs.Refresh.Blocks
import KeyChart.Proofs.Refresh.File
import KeyChart.Proofs.Refresh.Checked
import KeyChart.Proofs.Refresh.Splicing
import KeyChart.Proofs.Keymap.Placement
import KeyChart.Proofs.Keymap.Coverage
import KeyChart.Proofs.Keymap.Concatenation
import KeyChart.Proofs.Keymap.Stages
import KeyChart.Proofs.Keymap.Printing
import KeyChart.Proofs.Keymap.Keys
import KeyChart.Proofs.Keymap.Pattern
import KeyChart.Proofs.Command.Request
import KeyChart.Proofs.Command.Exit
