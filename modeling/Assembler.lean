import Assembler.Main
import Assembler.Proofs.Description.Building
import Assembler.Proofs.Emission.Integer
import Assembler.Proofs.Format.Image
import Assembler.Proofs.Layout.Convergence
import Assembler.Proofs.Layout.Diagnosis
import Assembler.Proofs.Layout.Limits
import Assembler.Proofs.Layout.Minimal
import Assembler.Proofs.Layout.Verdict
import Assembler.Proofs.Linking.Agreement
import Assembler.Proofs.Object.Reemission
import Assembler.Proofs.Object.Relative
import Assembler.Proofs.Reloc.Filling
