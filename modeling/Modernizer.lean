import Modernizer.CommandLine.Files
import Modernizer.Main
import Modernizer.Proofs.CommandLine.InPlace
import Modernizer.Proofs.CommandLine.Settings
import Modernizer.Proofs.Expression.Rereading
import Modernizer.Proofs.Layout.LineEnds
import Modernizer.Proofs.Layout.MovedCode
import Modernizer.Proofs.Layout.Removing
import Modernizer.Proofs.Layout.Rereading
import Modernizer.Proofs.Layout.Shifting
import Modernizer.Proofs.Layout.Tiling
import Modernizer.Proofs.Parser.Attachment
import Modernizer.Proofs.Parser.Climbing
import Modernizer.Proofs.Parser.LookAhead
import Modernizer.Proofs.Rule.ArrowOwner
import Modernizer.Proofs.Rule.ClassComments
import Modernizer.Proofs.Rule.ClassConstructor
import Modernizer.Proofs.Rule.ClassHoisting
import Modernizer.Proofs.Rule.ClassVisibility
import Modernizer.Proofs.Rule.Comments
import Modernizer.Proofs.Rule.Constructed
import Modernizer.Proofs.Rule.ConstructorName
import Modernizer.Proofs.Rule.ListDecision
import Modernizer.Proofs.Rule.MemberKey
import Modernizer.Proofs.Rule.OwnName
import Modernizer.Proofs.Rule.Settling
import Modernizer.Proofs.Rule.Splitting
import Modernizer.Proofs.Rule.SuperMember
import Modernizer.Proofs.Rule.Visits
import Modernizer.Proofs.Rule.Warnings
import Modernizer.Proofs.Scope.Hoisting
import Modernizer.Proofs.Scope.Verdict
import Modernizer.Proofs.Text.Position
import Modernizer.Proofs.Token.StringValue
import Modernizer.Proofs.Tree.Replacement
import Modernizer.Proofs.Tree.Takeover
import Modernizer.Rule.Renewal
import Modernizer.Text.Basic
