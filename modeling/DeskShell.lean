import DeskShell.Main
import DeskShell.Proofs.Expression.Grouping
import DeskShell.Proofs.Expression.PostOrder
import DeskShell.Proofs.Expression.Bounds
import DeskShell.Proofs.Expression.Spacing
import DeskShell.Proofs.Expression.Parentheses
import DeskShell.Proofs.Expression.BareFunction
import DeskShell.Proofs.Expression.FirstFault
import DeskShell.Proofs.Expression.Signs
import DeskShell.Proofs.Calendar.Durability
import DeskShell.Proofs.Calendar.LeadingNumbers
import DeskShell.Proofs.Calendar.Grid
import DeskShell.Proofs.Calendar.PrintedDates
import DeskShell.Proofs.Survival
import DeskShell.Proofs.Packages.OneByOne
import DeskShell.Proofs.Packages.Operations
import DeskShell.Proofs.Program.Footprint
import DeskShell.Proofs.Shell.Confinement
import DeskShell.Proofs.Shell.Nesting
import DeskShell.Proofs.Files.AllOrNothing
import DeskShell.Proofs.Settings.Quoting
import DeskShell.Proofs.Settings.Spellings
import DeskShell.Proofs.Settings.Refusals
import DeskShell.Proofs.CommandLine
