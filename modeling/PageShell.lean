import PageShell.Proofs.Manifest.RoundTrip
import PageShell.Proofs.Manifest.Verdict
import PageShell.Proofs.Page.Markup
import PageShell.Proofs.Page.Mounting
import PageShell.Proofs.Shell.CompletedLines
import PageShell.Proofs.Shell.Moves
import PageShell.Proofs.Path.Halving
import PageShell.Proofs.Shell.Transcripts
import PageShell.Proofs.Page.Candidates
import PageShell.Proofs.Shell.Dispatch
import PageShell.Proofs.Shell.Ascent
import PageShell.Proofs.Shell.Pages
import PageShell.Proofs.Path.Fixpoints
import PageShell.Proofs.Shell.Completions
import PageShell.Proofs.Path.Canonical
import PageShell.Proofs.Shell.DotOperands
import PageShell.Proofs.Page.Histories
import PageShell.Proofs.Shell.Drawing
import PageShell.Proofs.Page.Submissions
import PageShell.Proofs.Page.TabOrder
import PageShell.Proofs.Shell.CommonStarts
import PageShell.Proofs.Shell.Expansion
import PageShell.Proofs.Manifest.Reachability
import PageShell.Proofs.Shell.Images
import PageShell.Proofs.Shell.Probing
