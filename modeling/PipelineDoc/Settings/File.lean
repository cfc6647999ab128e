import PipelineDoc.Settings.Basic
import PipelineDoc.Toml.Document

/-!
# Settings files

A settings file is a TOML document whose table is the record of the settings.
-/

namespace PipelineDoc

/-- **Reads a settings file.** -/
def Settings.parse? (t : Text) : Option Settings :=
  (Toml.parse? t).bind (Settings.ofValue? Value.Format.toml)

end PipelineDoc
