import ScriptedAgent.Main
import ScriptedAgent.Proofs.Agent.Refusal
import ScriptedAgent.Proofs.Run.Soundness
import ScriptedAgent.Proofs.Store.Reachable
import ScriptedAgent.Proofs.Wire.Message
import ScriptedAgent.Script.Stmt.Printer
import ScriptedAgent.Proofs.Agent.Access
import ScriptedAgent.Proofs.Store.Coherent
import ScriptedAgent.Proofs.Script.Declarations
import ScriptedAgent.Proofs.Script.ExprReads
import ScriptedAgent.Proofs.Script.RoundTrip
import ScriptedAgent.Proofs.Wire.Received
import ScriptedAgent.Proofs.Agent.Hidden
import ScriptedAgent.Proofs.Agent.Responses
import ScriptedAgent.Proofs.Wire.ReceivedMessage
import ScriptedAgent.Proofs.Agent.Accepted
import ScriptedAgent.Proofs.Run.Handover
import ScriptedAgent.Proofs.Store.Walk
import ScriptedAgent.Script.Mention
import ScriptedAgent.Proofs.Run.Frame
import ScriptedAgent.Proofs.Script.Brackets
import ScriptedAgent.Proofs.Run.Unrolling
import ScriptedAgent.Proofs.Run.Chain
import ScriptedAgent.Proofs.Run.Traceless
import ScriptedAgent.Proofs.Scalar
import ScriptedAgent.Proofs.Run.Truth
import ScriptedAgent.Proofs.Layout.Pack
import ScriptedAgent.Proofs.Store.Fits
import ScriptedAgent.Proofs.TypeTable.Registry
import ScriptedAgent.Proofs.Initializer.Applied
import ScriptedAgent.Proofs.Initializer.RoundTrip
import ScriptedAgent.Proofs.Script.LineBreaks
import ScriptedAgent.Proofs.Script.Steps
import ScriptedAgent.Proofs.Script.Octets
import ScriptedAgent.Proofs.Oid.Spelling
