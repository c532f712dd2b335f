import EcmaPattern.Options

/-!
# Properties

The properties that a property escape can name. Which names there are is data: each table gives, for
every edition that added some, the names it added. `Property.ofPair?` and `Property.ofName?` look an
escape's words up in them, and `Property.listed_mono` says that no edition takes a name back.
-/

namespace EcmaPattern.Property

/-! ## Property names and values

The names that may stand in a property escape, with the edition that added each group of them. -/

def categoryNames : List String := ["General_Category", "gc"]

def scriptNames : List String := ["Script", "Script_Extensions", "sc", "scx"]

def categoryValues : List (Edition × List String) := [
  (.es2018, [
    "C", "Cased_Letter", "Cc", "Cf", "Close_Punctuation", "Cn", "Co", "Combining_Mark",
    "Connector_Punctuation", "Control", "Cs", "Currency_Symbol", "Dash_Punctuation",
    "Decimal_Number", "Enclosing_Mark", "Final_Punctuation", "Format", "Initial_Punctuation",
    "L", "LC", "Letter", "Letter_Number", "Line_Separator", "Ll", "Lm", "Lo", "Lowercase_Letter",
    "Lt", "Lu", "M", "Mark", "Math_Symbol", "Mc", "Me", "Mn", "Modifier_Letter",
    "Modifier_Symbol", "N", "Nd", "Nl", "No", "Nonspacing_Mark", "Number", "Open_Punctuation",
    "Other", "Other_Letter", "Other_Number", "Other_Punctuation", "Other_Symbol", "P",
    "Paragraph_Separator", "Pc", "Pd", "Pe", "Pf", "Pi", "Po", "Private_Use", "Ps",
    "Punctuation", "S", "Sc", "Separator", "Sk", "Sm", "So", "Space_Separator", "Spacing_Mark",
    "Surrogate", "Symbol", "Titlecase_Letter", "Unassigned", "Uppercase_Letter", "Z", "Zl", "Zp",
    "Zs", "cntrl", "digit", "punct"])]

def scriptValues : List (Edition × List String) := [
  (.es2018, [
    "Adlam", "Adlm", "Aghb", "Ahom", "Anatolian_Hieroglyphs", "Arab", "Arabic", "Armenian",
    "Armi", "Armn", "Avestan", "Avst", "Bali", "Balinese", "Bamu", "Bamum", "Bass", "Bassa_Vah",
    "Batak", "Batk", "Beng", "Bengali", "Bhaiksuki", "Bhks", "Bopo", "Bopomofo", "Brah",
    "Brahmi", "Brai", "Braille", "Bugi", "Buginese", "Buhd", "Buhid", "Cakm",
    "Canadian_Aboriginal", "Cans", "Cari", "Carian", "Caucasian_Albanian", "Chakma", "Cham",
    "Cher", "Cherokee", "Common", "Copt", "Coptic", "Cprt", "Cuneiform", "Cypriot", "Cyrillic",
    "Cyrl", "Deseret", "Deva", "Devanagari", "Dsrt", "Dupl", "Duployan", "Egyp",
    "Egyptian_Hieroglyphs", "Elba", "Elbasan", "Ethi", "Ethiopic", "Geor", "Georgian", "Glag",
    "Glagolitic", "Gonm", "Goth", "Gothic", "Gran", "Grantha", "Greek", "Grek", "Gujarati",
    "Gujr", "Gurmukhi", "Guru", "Han", "Hang", "Hangul", "Hani", "Hano", "Hanunoo", "Hatr",
    "Hatran", "Hebr", "Hebrew", "Hira", "Hiragana", "Hluw", "Hmng", "Hung", "Imperial_Aramaic",
    "Inherited", "Inscriptional_Pahlavi", "Inscriptional_Parthian", "Ital", "Java", "Javanese",
    "Kaithi", "Kali", "Kana", "Kannada", "Katakana", "Kayah_Li", "Khar", "Kharoshthi", "Khmer",
    "Khmr", "Khoj", "Khojki", "Khudawadi", "Knda", "Kthi", "Lana", "Lao", "Laoo", "Latin",
    "Latn", "Lepc", "Lepcha", "Limb", "Limbu", "Lina", "Linb", "Linear_A", "Linear_B", "Lisu",
    "Lyci", "Lycian", "Lydi", "Lydian", "Mahajani", "Mahj", "Malayalam", "Mand", "Mandaic",
    "Mani", "Manichaean", "Marc", "Marchen", "Masaram_Gondi", "Meetei_Mayek", "Mend",
    "Mende_Kikakui", "Merc", "Mero", "Meroitic_Cursive", "Meroitic_Hieroglyphs", "Miao", "Mlym",
    "Modi", "Mong", "Mongolian", "Mro", "Mroo", "Mtei", "Mult", "Multani", "Myanmar", "Mymr",
    "Nabataean", "Narb", "Nbat", "New_Tai_Lue", "Newa", "Nko", "Nkoo", "Nshu", "Nushu", "Ogam",
    "Ogham", "Ol_Chiki", "Olck", "Old_Hungarian", "Old_Italic", "Old_North_Arabian",
    "Old_Permic", "Old_Persian", "Old_South_Arabian", "Old_Turkic", "Oriya", "Orkh", "Orya",
    "Osage", "Osge", "Osma", "Osmanya", "Pahawh_Hmong", "Palm", "Palmyrene", "Pau_Cin_Hau",
    "Pauc", "Perm", "Phag", "Phags_Pa", "Phli", "Phlp", "Phnx", "Phoenician", "Plrd", "Prti",
    "Psalter_Pahlavi", "Qaac", "Qaai", "Rejang", "Rjng", "Runic", "Runr", "Samaritan", "Samr",
    "Sarb", "Saur", "Saurashtra", "Sgnw", "Sharada", "Shavian", "Shaw", "Shrd", "Sidd",
    "Siddham", "SignWriting", "Sind", "Sinh", "Sinhala", "Sora", "Sora_Sompeng", "Soyo",
    "Soyombo", "Sund", "Sundanese", "Sylo", "Syloti_Nagri", "Syrc", "Syriac", "Tagalog", "Tagb",
    "Tagbanwa", "Tai_Le", "Tai_Tham", "Tai_Viet", "Takr", "Takri", "Tale", "Talu", "Tamil",
    "Taml", "Tang", "Tangut", "Tavt", "Telu", "Telugu", "Tfng", "Tglg", "Thaa", "Thaana", "Thai",
    "Tibetan", "Tibt", "Tifinagh", "Tirh", "Tirhuta", "Ugar", "Ugaritic", "Vai", "Vaii", "Wara",
    "Warang_Citi", "Xpeo", "Xsux", "Yi", "Yiii", "Zanabazar_Square", "Zanb", "Zinh", "Zyyy"]),
  (.es2019, [
    "Dogr", "Dogra", "Gong", "Gunjala_Gondi", "Hanifi_Rohingya", "Maka", "Makasar",
    "Medefaidrin", "Medf", "Old_Sogdian", "Rohg", "Sogd", "Sogdian", "Sogo"]),
  (.es2020, [
    "Elym", "Elymaic", "Hmnp", "Nand", "Nandinagari", "Nyiakeng_Puachue_Hmong", "Wancho", "Wcho"]),
  (.es2021, [
    "Chorasmian", "Chrs", "Diak", "Dives_Akuru", "Khitan_Small_Script", "Kits", "Yezi", "Yezidi"]),
  (.es2022, [
    "Cpmn", "Cypro_Minoan", "Old_Uyghur", "Ougr", "Tangsa", "Tnsa", "Toto", "Vith", "Vithkuqi"]),
  (.es2023, [
    "Hrkt", "Katakana_Or_Hiragana", "Kawi", "Nag_Mundari", "Nagm", "Unknown", "Zzzz"]),
  (.es2025, [
    "Gara", "Garay", "Gukh", "Gurung_Khema", "Kirat_Rai", "Krai", "Ol_Onal", "Onao", "Sunu",
    "Sunuwar", "Todhri", "Todr", "Tulu_Tigalari", "Tutg"])]

def binaryNames : List (Edition × List String) := [
  (.es2018, [
    "AHex", "ASCII", "ASCII_Hex_Digit", "Alpha", "Alphabetic", "Any", "Assigned", "Bidi_C",
    "Bidi_Control", "Bidi_M", "Bidi_Mirrored", "CI", "CWCF", "CWCM", "CWKCF", "CWL", "CWT",
    "CWU", "Case_Ignorable", "Cased", "Changes_When_Casefolded", "Changes_When_Casemapped",
    "Changes_When_Lowercased", "Changes_When_NFKC_Casefolded", "Changes_When_Titlecased",
    "Changes_When_Uppercased", "DI", "Dash", "Default_Ignorable_Code_Point", "Dep", "Deprecated",
    "Dia", "Diacritic", "Emoji", "Emoji_Component", "Emoji_Modifier", "Emoji_Modifier_Base",
    "Emoji_Presentation", "Ext", "Extender", "Gr_Base", "Gr_Ext", "Grapheme_Base",
    "Grapheme_Extend", "Hex", "Hex_Digit", "IDC", "IDS", "IDSB", "IDST", "IDS_Binary_Operator",
    "IDS_Trinary_Operator", "ID_Continue", "ID_Start", "Ideo", "Ideographic", "Join_C",
    "Join_Control", "LOE", "Logical_Order_Exception", "Lower", "Lowercase", "Math", "NChar",
    "Noncharacter_Code_Point", "Pat_Syn", "Pat_WS", "Pattern_Syntax", "Pattern_White_Space",
    "QMark", "Quotation_Mark", "RI", "Radical", "Regional_Indicator", "SD", "STerm",
    "Sentence_Terminal", "Soft_Dotted", "Term", "Terminal_Punctuation", "UIdeo",
    "Unified_Ideograph", "Upper", "Uppercase", "VS", "Variation_Selector", "White_Space", "XIDC",
    "XIDS", "XID_Continue", "XID_Start", "space"]),
  (.es2019, [
    "Extended_Pictographic"]),
  (.es2021, [
    "EBase", "EComp", "EMod", "EPres", "ExtPict"])]

def stringNames : List (Edition × List String) := [
  (.es2024, [
    "Basic_Emoji", "Emoji_Keycap_Sequence", "RGI_Emoji", "RGI_Emoji_Flag_Sequence",
    "RGI_Emoji_Modifier_Sequence", "RGI_Emoji_Tag_Sequence", "RGI_Emoji_ZWJ_Sequence"])]

end EcmaPattern.Property

namespace EcmaPattern

/-! ## Properties

What may stand between the braces of a property escape: a pair of a property and its value, a
general category alone, a property that characters have or lack, or a property of strings. -/

/-- The property that a property escape names. -/
structure Property where
  /-- The property's name. -/
  key : String
  /-- The value asked for, unless the property is one that is had or lacked. -/
  value : Option String
  /-- Whether it is a property of strings. -/
  strings : Bool
  deriving DecidableEq

namespace Property

def listed (table : List (Edition × List String)) (edition : Edition) (name : String) : Bool :=
  table.any fun (since, names) => since ≤ edition && names.contains name

/-- Whether an edition knows the value for the property, as in `Script=Greek`. -/
def isValue (edition : Edition) (name value : String) : Bool :=
  if categoryNames.contains name then listed categoryValues edition value
  else scriptNames.contains name && listed scriptValues edition value

def isBinary (edition : Edition) (name : String) : Bool := listed binaryNames edition name

def isOfStrings (edition : Edition) (name : String) : Bool := listed stringNames edition name

def ofPair? (edition : Edition) (name value : String) : Option Property :=
  if isValue edition name value then some ⟨name, some value, false⟩ else none

/-- The property that a name alone stands for: a general category, else a property that characters
have or lack, else, where these are allowed, a property of strings. -/
def ofName? (edition : Edition) (stringsAllowed : Bool) (name : String) : Option Property :=
  if isValue edition "General_Category" name then some ⟨"General_Category", some name, false⟩
  else if isBinary edition name then some ⟨name, none, false⟩
  else if stringsAllowed && isOfStrings edition name then some ⟨name, none, true⟩
  else none

/-- A later edition keeps the names of an earlier one. -/
theorem listed_mono {table : List (Edition × List String)} {a b : Edition} {name : String}
    (h : a ≤ b) (hn : listed table a name) : listed table b name := by
  simp only [listed, List.any_eq_true, Bool.and_eq_true, decide_eq_true_eq] at hn ⊢
  obtain ⟨row, hmem, hsince, hname⟩ := hn
  exact ⟨row, hmem, Nat.le_trans hsince h, hname⟩

end Property

end EcmaPattern
