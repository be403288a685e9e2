import NotationCalculator.Main
import NotationCalculator.Proofs.Agreement
import NotationCalculator.Proofs.Descent
import NotationCalculator.Proofs.StackReading
import NotationCalculator.Session
import NotationCalculator.Proofs.Acceptance
import NotationCalculator.Proofs.Outcomes
import NotationCalculator.Proofs.LastAnswer
import NotationCalculator.Proofs.Refusals
import NotationCalculator.Proofs.Switching
import NotationCalculator.Proofs.Meaning
import NotationCalculator.Proofs.Atomicity
import NotationCalculator.Proofs.Degrees
import NotationCalculator.Proofs.Precision
import NotationCalculator.Proofs.Reorderable
import NotationCalculator.Proofs.Alternation
import NotationCalculator.Proofs.Rearrangement
import NotationCalculator.Proofs.Pieces
import NotationCalculator.Proofs.Substitution
import NotationCalculator.Proofs.Masking
import NotationCalculator.Proofs.NearestEven
import NotationCalculator.Proofs.Magnitudes
import NotationCalculator.Proofs.NumeralGrammar
import NotationCalculator.Proofs.FixedPoint
import NotationCalculator.Proofs.PrintedNumerals
import NotationCalculator.Proofs.WrappedFactorial
import NotationCalculator.Proofs.Units
import NotationCalculator.Proofs.HalfUp
import NotationCalculator.Proofs.Respacing
import NotationCalculator.Proofs.Tidying
import NotationCalculator.Proofs.CommandLines
import NotationCalculator.Proofs.CommandsApart
import NotationCalculator.Proofs.SettingsReplay
