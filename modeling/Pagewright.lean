import Pagewright.Main
import Pagewright.Proofs.Json.Doubles
import Pagewright.Proofs.Json.Faithful
import Pagewright.Proofs.Json.Numeral
import Pagewright.Proofs.Json.ReadBack
import Pagewright.Proofs.Page.Address
import Pagewright.Proofs.Page.Embedding
import Pagewright.Proofs.Page.Includes
import Pagewright.Proofs.Page.Output
import Pagewright.Proofs.Page.Sections
import Pagewright.Proofs.Page.SettingsBlock
import Pagewright.Proofs.Path.Components
import Pagewright.Proofs.Path.Order
import Pagewright.Proofs.Site.CleanBuild
import Pagewright.Proofs.Site.Collision
import Pagewright.Proofs.Site.Incremental
import Pagewright.Proofs.Site.Options
import Pagewright.Proofs.Site.Refused
import Pagewright.Proofs.Site.Untouched
import Pagewright.Proofs.Template.BetweenCharacters
import Pagewright.Proofs.Template.Calls
import Pagewright.Proofs.Template.Comments
import Pagewright.Proofs.Template.Expressions
import Pagewright.Proofs.Template.Extensions
import Pagewright.Proofs.Template.FirstArgument
import Pagewright.Proofs.Template.Fragments
import Pagewright.Proofs.Template.InPlace
import Pagewright.Proofs.Template.Keys
import Pagewright.Proofs.Template.Keywords
import Pagewright.Proofs.Template.Leftovers
import Pagewright.Proofs.Template.Literals
import Pagewright.Proofs.Template.Nameless
import Pagewright.Proofs.Template.Parentheses
import Pagewright.Proofs.Template.Regions
import Pagewright.Proofs.Template.Report
import Pagewright.Proofs.Template.Spans
import Pagewright.Proofs.Template.Stretches
import Pagewright.Proofs.Template.Unclosed
import Pagewright.Proofs.Template.Verbatim
import Pagewright.Proofs.Watch.Answers
import Pagewright.Proofs.Watch.Debouncer
import Pagewright.Proofs.Watch.Screen
import Pagewright.Proofs.Watch.Session
import Pagewright.Proofs.Watch.Targets
import Pagewright.Proofs.Yaml.Values
