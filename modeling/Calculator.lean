import Calculator.Main
import Calculator.Proofs.Sentence
import Calculator.Proofs.Substitution
import Calculator.Proofs.Scan
import Calculator.Proofs.Splitting
import Calculator.Proofs.Lexing
import Calculator.Proofs.Grammar
import Calculator.Proofs.Meaning
import Calculator.Proofs.Wording
import Calculator.Proofs.Descent
import Calculator.Proofs.Calculation
import Calculator.Proofs.Chain
import Calculator.Proofs.WellNested
import Calculator.Proofs.Events
import Calculator.Proofs.Conservation
import Calculator.Proofs.Precedence
import Calculator.Proofs.Entries
import Calculator.Proofs.Bracketing
import Calculator.Proofs.Failures
import Calculator.Proofs.Scanning
import Calculator.Proofs.Tiling
import Calculator.Proofs.Alphabet
import Calculator.Proofs.Rounding
import Calculator.Proofs.Exactness
import Calculator.Proofs.Conventional
import Calculator.Proofs.Causes
import Calculator.Proofs.Partner
import Calculator.Proofs.Renumbering
import Calculator.Proofs.Associativity
import Calculator.Proofs.Restriction
import Calculator.Proofs.Truncation
import Calculator.Proofs.Concatenation
import Calculator.Proofs.Ambiguity
import Calculator.Proofs.Unpaired
import Calculator.Proofs.Reporting
import Calculator.Proofs.Measure
import Calculator.Proofs.Numerals
import Calculator.Proofs.RoundTrip
