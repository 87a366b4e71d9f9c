import Ecma.Proofs.EscapedJumps
import Ecma.Proofs.GlobalDeclarations
import Ecma.Proofs.MappedArguments
import Ecma.Proofs.Number.RoundTrip
import Ecma.Proofs.Number.ClosestDigits
import Ecma.Proofs.ThrowLocations
import Ecma.Proofs.PendingLocations
import Ecma.Proofs.VariableLifecycle
import Ecma.Proofs.CallDepth
import Ecma.Proofs.PrototypeChains
import Ecma.Proofs.GlobalNames
import Ecma.Proofs.GlobalLayers
import Ecma.Proofs.ScriptDeclarations
import Ecma.Proofs.LazyResolution
import Ecma.Proofs.ResolverTrees
import Ecma.Proofs.PropertyPatches
import Ecma.Proofs.DeadZones
import Ecma.Proofs.Number.IntegerTags
import Ecma.Proofs.Number.NumericLiterals
import Ecma.Proofs.DescriptorKinds
import Ecma.Proofs.FrozenProperties
import Ecma.Proofs.CallDeclarations
import Ecma.Proofs.Enumerations
import Ecma.Proofs.IteratorClosing
import Ecma.Proofs.RefusedOperations
import Ecma.Proofs.RepeatedDefinitions
import Ecma.Proofs.OwnKeyOrder
import Ecma.Proofs.DeclarationAnalysis
import Ecma.Proofs.SwitchDispatch
import Ecma.Proofs.LooseEquality
import Ecma.Proofs.Number.Midpoints
import Ecma.Proofs.TextObjects
import Ecma.Proofs.StoredDescriptors
import Ecma.Proofs.TurnScopes
