import Lox.Main
import Lox.Proofs.FirstError
import Lox.Proofs.Overcharge
import Lox.Proofs.Statements
import Lox.Proofs.Sentinel
import Lox.Proofs.Conversation
import Lox.Proofs.LineEnds
import Lox.Proofs.Lockstep
import Lox.Proofs.Respelled
import Lox.Proofs.Looser
import Lox.Proofs.TreeText
import Lox.Proofs.FewestDigits
import Lox.Proofs.Erasure
import Lox.Proofs.Strays
import Lox.Proofs.ExitCodes
import Lox.Proofs.Counters
