import Bladewright.Main
import Bladewright.Proofs.Algebra.Duality
import Bladewright.Proofs.Algebra.ScalarProduct
import Bladewright.Proofs.Blade.Inversions
import Bladewright.Proofs.Blade.Names
import Bladewright.Proofs.Code.HoistedCalls
import Bladewright.Proofs.Coeff.Formula
import Bladewright.Proofs.Compilation.OutputType
import Bladewright.Proofs.Dense.Agreement
import Bladewright.Proofs.Dense.Basis
import Bladewright.Proofs.Dense.Embedding
import Bladewright.Proofs.Evaluation.Division
import Bladewright.Proofs.Evaluation.Powers
import Bladewright.Proofs.Evaluation.Shape
import Bladewright.Proofs.Expansion.HostCalls
import Bladewright.Proofs.Expansion.Overrides
import Bladewright.Proofs.Expansion.Substitution
import Bladewright.Proofs.Signature.Specs
