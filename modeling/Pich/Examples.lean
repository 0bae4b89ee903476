import Pich.Base.Hex
import Pich.Specification

namespace Pich.Examples
open Bytes

end Pich.Examples
