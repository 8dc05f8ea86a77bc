import MicroJava.Compile
import MicroJava.Bytecode.Instruction
import MicroJava.OptionsFile
import MicroJava.Proofs.Run
import MicroJava.Proofs.Layout
import MicroJava.Proofs.StackDiscipline
import MicroJava.Proofs.ControlFlow
import MicroJava.Proofs.Denoting
import MicroJava.Proofs.Access
import MicroJava.Proofs.Block
import MicroJava.Proofs.Declare
import MicroJava.Proofs.Growth
import MicroJava.Proofs.Scanned
import MicroJava.Proofs.Checking
import MicroJava.Proofs.CheckingAction
import MicroJava.Proofs.Closed
import MicroJava.Proofs.Patching
import MicroJava.Proofs.Safe
import MicroJava.Proofs.SafeExpression
import MicroJava.Proofs.SafeProgram
import MicroJava.Proofs.StructuredCode
import MicroJava.Proofs.Termination
import MicroJava.Proofs.Encoded
import MicroJava.Proofs.CheckingBlock
import MicroJava.Proofs.TwoPass
import MicroJava.Proofs.Unpatched
import MicroJava.Proofs.SourceOrder
import MicroJava.Proofs.Renamed
import MicroJava.Proofs.Accepting
import MicroJava.Proofs.ComputingExpression
import MicroJava.Proofs.NameStack
import MicroJava.Proofs.Decoding
import MicroJava.Proofs.Partition
import MicroJava.Proofs.Printed
import MicroJava.Proofs.EvolvingProgram
import MicroJava.Proofs.Characters
import MicroJava.Proofs.InsertedText
import MicroJava.Proofs.VariableArguments
import MicroJava.Proofs.TypeRelations
import MicroJava.Proofs.Comments
import MicroJava.Proofs.Publishing
import MicroJava.Proofs.UpdateCode
import MicroJava.Proofs.ImageFile
import MicroJava.Proofs.LoadStore
import MicroJava.Proofs.Worded
