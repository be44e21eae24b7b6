import PolishLogic.Main
import PolishLogic.Blueprint
import PolishLogic.Description
import PolishLogic.Workspace
import PolishLogic.Proofs.Normalization.Nnf
import PolishLogic.Proofs.Normalization.Written
import PolishLogic.Proofs.Formula.Position
import PolishLogic.Proofs.Normalization.Exchange
import PolishLogic.Proofs.Substitution
import PolishLogic.Proofs.Log.Silence
import PolishLogic.Proofs.Reading.Freshness
import PolishLogic.Proofs.Workspace.Session
import PolishLogic.Proofs.Workspace.Records
import PolishLogic.Proofs.Workspace.Values
import PolishLogic.Proofs.Log.Loggers
import PolishLogic.Proofs.CommandLine.Answer
import PolishLogic.Proofs.Normalization.Occurrence
import PolishLogic.Proofs.Normalization.Duality
import PolishLogic.Proofs.Normalization.Part
import PolishLogic.Proofs.Normalization.SoleDefect
import PolishLogic.Proofs.Normalization.Trace
import PolishLogic.Proofs.Reading.Division
import PolishLogic.Proofs.Reading.Lexer
import PolishLogic.Proofs.Formula.Copy
import PolishLogic.Proofs.Normalization.Rule
import PolishLogic.Proofs.CommandLine.File
