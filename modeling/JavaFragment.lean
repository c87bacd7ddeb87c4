import JavaFragment.Proofs.AccessorBodies
import JavaFragment.Proofs.ArrayInitializers
import JavaFragment.Proofs.CheckedValues
import JavaFragment.Proofs.Concatenation
import JavaFragment.Proofs.DeeperStacks
import JavaFragment.Proofs.DottedNames
import JavaFragment.Proofs.FieldConstants
import JavaFragment.Proofs.IntegerConversions
import JavaFragment.Proofs.Lookahead
import JavaFragment.Proofs.Overloads
import JavaFragment.Proofs.PoolBytes
import JavaFragment.Proofs.ReadingProgress
import JavaFragment.Proofs.Receivers
import JavaFragment.Proofs.SessionConduct
import JavaFragment.Proofs.SignedLiterals
import JavaFragment.Proofs.Spelling
import JavaFragment.Proofs.SwitchTables
import JavaFragment.Proofs.VoidTypes
import JavaFragment.Proofs.WholeTexts
import JavaFragment.Proofs.Execution
