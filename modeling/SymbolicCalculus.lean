import SymbolicCalculus.Checked
import SymbolicCalculus.CommandLine.Flags
import SymbolicCalculus.CommandLine.Run
import SymbolicCalculus.Config.Basic
import SymbolicCalculus.Config.Duration
import SymbolicCalculus.Config.HostPort
import SymbolicCalculus.Decimal.Binary64
import SymbolicCalculus.Decimal.Format
import SymbolicCalculus.Decimal.Integer
import SymbolicCalculus.Decimal.Radix
import SymbolicCalculus.Decimal.Shortest
import SymbolicCalculus.Defect
import SymbolicCalculus.Derivative
import SymbolicCalculus.Error
import SymbolicCalculus.Evaluate
import SymbolicCalculus.Expr.Basic
import SymbolicCalculus.Expr.ObjectForm
import SymbolicCalculus.Expr.Outline
import SymbolicCalculus.Expr.Render
import SymbolicCalculus.Fault
import SymbolicCalculus.Function
import SymbolicCalculus.Json.Basic
import SymbolicCalculus.Json.Reader
import SymbolicCalculus.Json.Writer
import SymbolicCalculus.Log.Level
import SymbolicCalculus.Log.Record
import SymbolicCalculus.Main
import SymbolicCalculus.Proofs.Checked
import SymbolicCalculus.Service.Body
import SymbolicCalculus.Service.Counters
import SymbolicCalculus.Service.Exchange
import SymbolicCalculus.Simplify
import SymbolicCalculus.Substitute
import SymbolicCalculus.Text.Blank
import SymbolicCalculus.Text.Printable
import SymbolicCalculus.Text.Quoted
import SymbolicCalculus.Tool.Call
import SymbolicCalculus.Tool.Decode
import SymbolicCalculus.Tool.Schema
import SymbolicCalculus.Yaml.Basic
import SymbolicCalculus.Yaml.Reader
import SymbolicCalculus.Proofs.Rules
import SymbolicCalculus.Proofs.NormalForm
import SymbolicCalculus.Proofs.Interleaving
import SymbolicCalculus.Proofs.Meaning
import SymbolicCalculus.Proofs.Soundness
import SymbolicCalculus.Proofs.DualNumber
import SymbolicCalculus.Proofs.Hereditary
import SymbolicCalculus.Proofs.Inheritance
import SymbolicCalculus.Proofs.Preservation
import SymbolicCalculus.Proofs.HigherDerivatives
import SymbolicCalculus.Proofs.DecimalText
import SymbolicCalculus.Proofs.JsonText
import SymbolicCalculus.Proofs.ObjectForm
import SymbolicCalculus.Proofs.BatchMachine
import SymbolicCalculus.Proofs.BatchSchedule
import SymbolicCalculus.Proofs.Evaluation
import SymbolicCalculus.Proofs.PowerForms
import SymbolicCalculus.Proofs.ExactIntegers
import SymbolicCalculus.Proofs.TreeGrammar
import SymbolicCalculus.Proofs.JsonGrammar
import SymbolicCalculus.Proofs.RequestBody
import SymbolicCalculus.Proofs.ToolResponses
import SymbolicCalculus.Proofs.CallCounters
import SymbolicCalculus.Proofs.DepthLimit
import SymbolicCalculus.Proofs.Settings
import SymbolicCalculus.Proofs.EnforcedLimits
import SymbolicCalculus.Proofs.WrittenText
import SymbolicCalculus.Proofs.CommandAgreement
import SymbolicCalculus.Proofs.ConstantFolding
import SymbolicCalculus.Proofs.Independence
import SymbolicCalculus.Proofs.PolynomialDegree
import SymbolicCalculus.Proofs.PolynomialPasses
import SymbolicCalculus.Proofs.ReportedFaults
import SymbolicCalculus.Proofs.DefectReports
import SymbolicCalculus.Proofs.FreeSymbols
import SymbolicCalculus.Proofs.NearestDouble
import SymbolicCalculus.Proofs.WrittenIntegers
import SymbolicCalculus.Proofs.BoundVariables
import SymbolicCalculus.Proofs.SubstitutionLaws
import SymbolicCalculus.Proofs.PowerRule
import SymbolicCalculus.Proofs.NodeCount
import SymbolicCalculus.Proofs.TreeReader
import SymbolicCalculus.Proofs.UniqueReading
import SymbolicCalculus.Proofs.WordMachine
