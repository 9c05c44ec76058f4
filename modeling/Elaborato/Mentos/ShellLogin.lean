import Elaborato.Foundation.Texts
import Elaborato.Mentos.InitrdRead

/-!
The check of credentials (shell_login.c) against `/passwd`, read byte by byte.
-/
namespace Elaborato.Mentos.Login
open Foundation Initrd Function

def colon : UInt8 := 58

def newline : UInt8 := 10

def carriageReturn : UInt8 := 13

/-- The `char` that is equal to `EOF`. -/
def eofChar : UInt8 := 255

end Elaborato.Mentos.Login
