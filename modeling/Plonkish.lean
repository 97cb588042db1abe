import Plonkish.Fault
import Plonkish.Poly.Product
import Plonkish.Expr.Evaluate
import Plonkish.Expr.Text
import Plonkish.Expr.Digest
import Plonkish.Stored
import Plonkish.Wire.Codec
import Plonkish.Json.Scan
import Plonkish.Json.Stored
import Plonkish.Table.Description
import Plonkish.Table.Matrix
import Plonkish.Table.Columns
import Plonkish.Circuit.Check
import Plonkish.Gadget.Arithmetic
import Plonkish.Gadget.Logic
import Plonkish.Gadget.Points
import Plonkish.Gadget.Basic
import Plonkish.Json.Circuit
import Plonkish.Proofs.Coefficients
import Plonkish.Proofs.Fault
import Plonkish.Proofs.Fourier
import Plonkish.Proofs.PointValues
import Plonkish.Proofs.Product
import Plonkish.Proofs.Cells
import Plonkish.Proofs.Columns
import Plonkish.Proofs.Check
import Plonkish.Proofs.Agreement
import Plonkish.Proofs.Operators
import Plonkish.Proofs.Registry
import Plonkish.Proofs.Steps
import Plonkish.Proofs.RowGadgets
import Plonkish.Proofs.BitGadgets
import Plonkish.Proofs.Placing
import Plonkish.Proofs.Instances
import Plonkish.Proofs.Completeness
import Plonkish.Proofs.Accepted
import Plonkish.Proofs.Inversion
import Plonkish.Proofs.Installed
import Plonkish.Proofs.RowSoundness
import Plonkish.Proofs.PointSoundness
import Plonkish.Proofs.BitSoundness
import Plonkish.Proofs.Determinacy
import Plonkish.Hashed
import Plonkish.Proofs.Decoders
import Plonkish.Proofs.Decoding
import Plonkish.Proofs.Anchored
import Plonkish.Proofs.Substitution
import Plonkish.Proofs.Shifting
import Plonkish.Proofs.PointAddition
import Plonkish.Proofs.PointCompleteness
import Plonkish.Proofs.Faithful
import Plonkish.Proofs.Selectors
import Plonkish.Proofs.Store
import Plonkish.Hashed.Operators
import Plonkish.Proofs.Equality
import Plonkish.Proofs.GroupLaw
import Plonkish.Proofs.Meaning
import Plonkish.Proofs.Violations
import Plonkish.Proofs.ColumnFaults
import Plonkish.Proofs.Snapshot
import Plonkish.Proofs.RowExactness
import Plonkish.Proofs.Composition
import Plonkish.Proofs.RoundTrip
import Plonkish.Proofs.Footprint
import Plonkish.Proofs.Refusals
import Plonkish.Proofs.ExactProducts
import Plonkish.Proofs.Homomorphism
import Plonkish.Proofs.Interpolation
import Plonkish.Proofs.Degrees
import Plonkish.Proofs.TermAlgebra
import Plonkish.Proofs.SelectorRanges
import Plonkish.Proofs.VariableText
import Plonkish.Proofs.Printing
import Plonkish.Proofs.Reading
import Plonkish.Proofs.MatrixColumns
import Plonkish.Json.Hashed
import Plonkish.Proofs.Scanning
import Plonkish.Proofs.Records
import Plonkish.Proofs.StoredTexts
import Plonkish.Proofs.Descriptions
import Plonkish.Proofs.JsonRoundTrip
import Plonkish.Proofs.PointShapes
import Plonkish.Proofs.Digits
import Plonkish.Proofs.Domains
import Plonkish.Proofs.BitPlaces
