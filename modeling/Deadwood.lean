import Deadwood.Main
import Deadwood.Proofs.Agreement
import Deadwood.Proofs.Bursts
import Deadwood.Proofs.Fix.BackupPaths
import Deadwood.Proofs.Fix.CutOff
import Deadwood.Proofs.Fix.OwnPatches
import Deadwood.Proofs.Fix.Session
import Deadwood.Proofs.History
import Deadwood.Proofs.Reach
import Deadwood.Proofs.Repeat
import Deadwood.Proofs.Script.Callbacks
import Deadwood.Proofs.Script.Commented
import Deadwood.Proofs.Script.Excerpt
import Deadwood.Proofs.Stylesheet.Comments
import Deadwood.Proofs.Stylesheet.Parting
import Deadwood.Proofs.Stylesheet.Required
import Deadwood.Proofs.Stylesheet.Spelling
import Deadwood.Proofs.Text.LongestCommon
import Deadwood.Proofs.Text.Snapping
import Deadwood.Proofs.Usage
import Deadwood.Proofs.Watched
import Deadwood.Proofs.Wildcard
