import Scriva.Reads
import Scriva.Revisions

namespace Scriva

open Option

section

variable {cfg : Config} {x y z : Store} {s t : Collection} {key : String} {r : Readings}
  {data : Option Data}

end

end Scriva
