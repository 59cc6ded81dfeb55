import Hecks.Orchestrate.Tables
import Hecks.Parser.RubyRoundTrip

/-! Which values the literals of a `with:` projection come back as. -/

namespace Hecks

end Hecks
