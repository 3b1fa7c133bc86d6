import Reckoner.Settings
/-!
The files a calculator comes with: the built-in settings written out, and captions for every setting
and every key that is no digit.
-/
namespace Reckoner.Files

def settingCaptions : List (String × String) :=
  [("degree_mode", "Interpret trigonometric arguments and results in degrees."),
   ("short_rep_digits", "Significant digits kept in the short form of a previous result."),
   ("decimal_separator", "Character used for the decimal point when displaying numbers."),
   ("rational_max_bits",
     "Size limit (in bits) for exact fractions before falling back to approximations."),
   ("debug", "Enable debug logging.")]

/-- The captions of the keys: their built-in looks. -/
def keyCaptions : List (String × Json) :=
  (Key.all.filter fun k => k.digit?.isNone).map fun k => (k.name.toLower, .text k.glyph)

def captionTable : Json :=
  .table (settingCaptions.map (fun entry => (entry.1, .text entry.2)) ++ [("keys", .table keyCaptions)])

def shipped : Files where
  settings := some (Json.write 0 Settings.defaults.toJson ++ "\n")
  captions := some (Json.write 0 captionTable)

end Reckoner.Files
