import ProtobufSchema.Proofs.CanonicalResults
import ProtobufSchema.Proofs.DefaultTexts
import ProtobufSchema.Proofs.ExtensionRanges
import ProtobufSchema.Proofs.HeldFrames
import ProtobufSchema.Proofs.IndependentAssignments
import ProtobufSchema.Proofs.IndexedElements
import ProtobufSchema.Proofs.JoinedMessages
import ProtobufSchema.Proofs.LexerPositions
import ProtobufSchema.Proofs.OneofMembership
import ProtobufSchema.Proofs.PrebuiltInputs
import ProtobufSchema.Proofs.PrintedRoundTrip
import ProtobufSchema.Proofs.ReaderRuns
import ProtobufSchema.Proofs.RegisteredNames
import ProtobufSchema.Proofs.RejectedDeclarations
import ProtobufSchema.Proofs.RememberedSymbols
import ProtobufSchema.Proofs.SteadyWalks
import ProtobufSchema.Proofs.StuckFiles
import ProtobufSchema.Proofs.TrackedReferences
