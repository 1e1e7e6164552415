import LC3.Main
import LC3.Console.Queue
import LC3.Console.Scripted
import LC3.Proofs.IsaStep
import LC3.Proofs.RawMode
import LC3.Proofs.FaultLaw
import LC3.Proofs.ImageFormat
import LC3.Proofs.QueueFaults
import LC3.Proofs.PromptOutput
import LC3.Proofs.Strings
import LC3.Proofs.StoredStrings
import LC3.Proofs.SearchBounds
import LC3.Proofs.SliceSchedule
import LC3.Proofs.Interchange
import LC3.Proofs.StatusRegister
import LC3.Proofs.UnreadInput
import LC3.Proofs.Interruption
import LC3.Proofs.Conclusion
import LC3.Proofs.Protocol
import LC3.Proofs.Absorption
import LC3.Proofs.LastResult
import LC3.Proofs.Loading
import LC3.Proofs.AllOrNothing
import LC3.Proofs.Keys
import LC3.Proofs.LineBuffer
import LC3.Proofs.QueueStreams
import LC3.Proofs.LoadedWords
import LC3.Proofs.Brackets
import LC3.Proofs.TwosComplement
import LC3.Proofs.TrapFrame
