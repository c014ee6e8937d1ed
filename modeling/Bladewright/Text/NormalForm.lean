/-!
The normal form of names: each character is replaced by the plainest characters that it is made of, marks are put in
order, and what can be composed is composed again. The tables are those of Latin, modern Greek and Cyrillic letters, of
kana and of the letters of mathematics; other characters stay as they are.
-/
namespace Bladewright.Text

/-! ### Tables -/

/-- Accents, each with letters and with what they become under it. -/
def accents : List (Char × String × String) :=
  [ ('\u0300', "AEIOUaeiouÜüNnЕИеиĒēŌōWwÂâĂăÊêÔôƠơƯưYy", "ÀÈÌÒÙàèìòùǛǜǸǹЀЍѐѝḔḕṐṑẀẁẦầẰằỀềỒồỜờỪừỲỳ"),
    ('\u0301', "AEIOUYaeiouyCcLlNnRrSsZzÜüGgÅåÆæØøΑΕΗΙΟΥΩϊαεηιϋουωϒГКгкÇçĒēÏïKkMmÕõŌōPpŨũWwÂâĂăÊêÔôƠơƯư",
      "ÁÉÍÓÚÝáéíóúýĆćĹĺŃńŔŕŚśŹźǗǘǴǵǺǻǼǽǾǿΆΈΉΊΌΎΏΐάέήίΰόύώϓЃЌѓќḈḉḖḗḮḯḰḱḾḿṌṍṒṓṔṕṸṹẂẃẤấẮắẾếỐốỚớỨứ"),
    ('\u0302', "AEIOUaeiouCcGgHhJjSsWwYyZzẠạẸẹỌọ", "ÂÊÎÔÛâêîôûĈĉĜĝĤĥĴĵŜŝŴŵŶŷẐẑẬậỆệỘộ"),
    ('\u0303', "ANOanoIiUuVvÂâĂăEeÊêÔôƠơƯưYy", "ÃÑÕãñõĨĩŨũṼṽẪẫẴẵẼẽỄễỖỗỠỡỮữỸỹ"),
    ('\u0304', "AaEeIiOoUuÜüÄäȦȧÆæǪǫÖöÕõȮȯYyИиУуGgḶḷṚṛ", "ĀāĒēĪīŌōŪūǕǖǞǟǠǡǢǣǬǭȪȫȬȭȰȱȲȳӢӣӮӯḠḡḸḹṜṝ"),
    ('\u0306', "AaEeGgIiOoUuУИиуЖжАаЕеȨȩẠạ", "ĂăĔĕĞğĬĭŎŏŬŭЎЙйўӁӂӐӑӖӗḜḝẶặ"),
    ('\u0307', "CcEeGgIZzAaOoBbDdFfHhMmNnPpRrSsŚśŠšṢṣTtWwXxYyſ", "ĊċĖėĠġİŻżȦȧȮȯḂḃḊḋḞḟḢḣṀṁṄṅṖṗṘṙṠṡṤṥṦṧṨṩṪṫẆẇẊẋẎẏẛ"),
    ('\u0308', "AEIOUaeiouyYΙΥιυϒЕІеіАаӘәЖжЗзИиОоӨөЭэУуЧчЫыHhÕõŪūWwXxt",
      "ÄËÏÖÜäëïöüÿŸΪΫϊϋϔЁЇёїӒӓӚӛӜӝӞӟӤӥӦӧӪӫӬӭӰӱӴӵӸӹḦḧṎṏṺṻẄẅẌẍẗ"),
    ('\u0309', "AaÂâĂăEeÊêIiOoÔôƠơUuƯưYy", "ẢảẨẩẲẳẺẻỂểỈỉỎỏỔổỞởỦủỬửỶỷ"),
    ('\u030a', "AaUuwy", "ÅåŮůẘẙ"),
    ('\u030b', "OoUuУу", "ŐőŰűӲӳ"),
    ('\u030c', "CcDdEeLlNnRrSsTtZzAaIiOoUuÜüGgKkƷʒjHh", "ČčĎďĚěĽľŇňŘřŠšŤťŽžǍǎǏǐǑǒǓǔǙǚǦǧǨǩǮǯǰȞȟ"),
    ('\u030f', "AaEeIiOoRrUuѴѵ", "ȀȁȄȅȈȉȌȍȐȑȔȕѶѷ"),
    ('\u0311', "AaEeIiOoRrUu", "ȂȃȆȇȊȋȎȏȒȓȖȗ"),
    ('\u031b', "OoUu", "ƠơƯư"),
    ('\u0323', "BbDdHhKkLlMmNnRrSsTtVvWwZzAaEeIiOoƠơUuƯưYy", "ḄḅḌḍḤḥḲḳḶḷṂṃṆṇṚṛṢṣṬṭṾṿẈẉẒẓẠạẸẹỊịỌọỢợỤụỰựỴỵ"),
    ('\u0324', "Uu", "Ṳṳ"),
    ('\u0325', "Aa", "Ḁḁ"),
    ('\u0326', "SsTt", "ȘșȚț"),
    ('\u0327', "CcGgKkLlNnRrSsTtEeDdHh", "ÇçĢģĶķĻļŅņŖŗŞşŢţȨȩḐḑḨḩ"),
    ('\u0328', "AaEeIiUuOo", "ĄąĘęĮįŲųǪǫ"),
    ('\u032d', "DdEeLlNnTtUu", "ḒḓḘḙḼḽṊṋṰṱṶṷ"),
    ('\u032e', "Hh", "Ḫḫ"),
    ('\u0330', "EeIiUu", "ḚḛḬḭṴṵ"),
    ('\u0331', "BbDdKkLlNnRrTtZzh", "ḆḇḎḏḴḵḺḻṈṉṞṟṮṯẔẕẖ"),
    ('\u3099', "かきくけこさしすせそたちつてとはひふへほうゝカキクケコサシスセソタチツテトハヒフヘホウワヰヱヲヽ",
      "がぎぐげござじずぜぞだぢづでどばびぶべぼゔゞガギグゲゴザジズゼゾダヂヅデドバビブベボヴヷヸヹヺヾ"),
    ('\u309a', "はひふへほハヒフヘホ", "ぱぴぷぺぽパピプペポ") ]

/-- Characters that stand for one other each. -/
def variants : List (String × String) :=
  [ ("ªµºſʹ·ϐϑϒϕϖϰϱϲϴϵϹʰʱʲʳʴʵʶʷʸˠˡˢˣˤᴬᴭᴮᴰᴱᴲᴳᴴᴵᴶᴷᴸᴹᴺᴼᴽᴾᴿᵀᵁᵂᵃᵄᵅᵆᵇᵈᵉᵊᵋᵌᵍᵏᵐᵑᵒᵓᵔᵕᵖᵗᵘᵙᵚᵛᵜᵝᵞᵟᵠᵡᵢᵣᵤᵥᵦᵧᵨᵩᵪᵸᶛᶜᶝᶞᶟᶠᶡᶢᶣᶤᶥᶦ",
      "aμosʹ·βθΥφπκρςΘεΣhɦjrɹɻʁwyɣlsxʕAÆBDEƎGHIJKLMNOȢPRTUWaɐɑᴂbdeəɛɜgkmŋoɔᴖᴗptuᴝɯvᴥβγδφχiruvβγρφχнɒcɕðɜfɟɡɥɨɩɪ"),
    ("ᶧᶨᶩᶪᶫᶬᶭᶮᶯᶰᶱᶲᶳᶴᶵᶶᶷᶸᶹᶺᶻᶼᶽᶾᶿⁱⁿₐₑₒₓₔₕₖₗₘₙₚₛₜℂℇℊℋℌℍℎℏℐℑℒℓℕℙℚℛℜℝℤΩℨKÅℬℭℯℰℱℳℴℵℶℷℸℹℼℽℾℿⅅⅆⅇⅈⅉⅠⅤⅩⅬⅭⅮⅯⅰⅴⅹⅼⅽⅾⅿⱼⱽꝰꟲꟳꟴ",
      "ᵻʝɭᶅʟɱɰɲɳɴɵɸʂʃƫʉʊᴜʋʌzʐʑʒθinaeoxəhklmnpstCƐgHHHhħIILlNPQRRRZΩZKÅBCeEFMoאבגדiπγΓΠDdeijIVXLCDMivxlcdmjVꝯCFQ"),
    ("ꟸꟹάέήίόύώΆιΈΉΐΊΰΎΌΏ",
      "ĦœάέήίόύώΆιΈΉΐΊΰΎΌΏ"),
    ("\u0340\u0341\u0343", "\u0300\u0301\u0313") ]

/-- Characters that stand for several, with those after them. -/
def ligatures : String :=
  "ĲIJ ĳij ĿL· ŀl· ŉʼn ǄDŽ ǅDž ǆdž ǇLJ ǈLj ǉlj ǊNJ ǋNj ǌnj ǱDZ ǲDz ǳdz ⅡII ⅢIII ⅣIV ⅥVI ⅦVII ⅧVIII ⅨIX ⅪXI ⅫXII ⅱii " ++
  "ⅲiii ⅳiv ⅵvi ⅶvii ⅷviii ⅸix ⅺxi ⅻxii ゟより ヿコト ﬀff ﬁfi ﬂfl ﬃffi ﬄffl ﬅſt ﬆst ẚaʾ \u0344\u0308\u0301"

/-- Stretches of characters that stand for an alphabet, again and again: where they start, their length, the alphabet. -/
def alphabets : List (Nat × Nat × String) :=
  [ (0x1d400, 676, "ABCDEFGHIJKLMNOPQRSTUVWXYZabcdefghijklmnopqrstuvwxyz"), (0x1d6a4, 2, "ıȷ"),
    (0x1d6a8, 290, "ΑΒΓΔΕΖΗΘΙΚΛΜΝΞΟΠΡϴΣΤΥΦΧΨΩ∇αβγδεζηθικλμνξοπρςστυφχψω∂ϵϑϰϕϱϖ"), (0x1d7ca, 2, "Ϝϝ"),
    (0x1d7ce, 50, "0123456789"), (0xff10, 10, "0123456789"), (0xff21, 26, "ABCDEFGHIJKLMNOPQRSTUVWXYZ"),
    (0xff3f, 1, "_"), (0xff41, 26, "abcdefghijklmnopqrstuvwxyz"),
    (0xff66, 58, "ヲァィゥェォャュョッーアイウエオカキクケコサシスセソタチツテトナニヌネノハヒフヘホマミムメモヤユヨラリルレロワン\u3099\u309a") ]

/-- Combining classes of marks: triples of the gap before a run of code points, its length and its class. -/
def combiningRuns : List Nat := [
  768, 21, 230, 0, 1, 232, 0, 4, 220, 0, 1, 232, 0, 1, 216, 0, 5, 220, 0, 2, 202, 0, 4, 220, 0, 2, 202, 0, 11,
  220, 0, 5, 1, 0, 4, 220, 0, 8, 230, 0, 1, 240, 0, 1, 230, 0, 3, 220, 0, 3, 230, 0, 2, 220, 1, 3, 230, 0, 4,
  220, 0, 1, 230, 0, 1, 232, 0, 2, 220, 0, 1, 230, 0, 1, 233, 0, 2, 234, 0, 1, 233, 0, 2, 234, 0, 1, 233, 0,
  13, 230, 11561, 2, 8]

def decompositions : List (Char × List Char) :=
  accents.flatMap (fun (accent, bases, letters) => letters.toList.zip (bases.toList.map fun base => [base, accent])) ++
  variants.flatMap (fun (letters, plain) => letters.toList.zip (plain.toList.map fun c => [c])) ++
  (ligatures.splitOn " ").filterMap (fun word => word.toList.head?.map fun c => (c, word.toList.tail))

def compositions : List ((Char × Char) × Char) :=
  accents.flatMap fun (accent, bases, letters) => (bases.toList.map fun base => (base, accent)).zip letters.toList

/-- What a character stands for or is made of, if it is in a table. -/
def parts? (c : Char) : Option (List Char) :=
  match alphabets.find? fun (start, length, _) => start ≤ c.toNat && c.toNat < start + length with
  | some (start, _, letters) => letters.toList[(c.toNat - start) % letters.length]?.map fun letter => [letter]
  | none => decompositions.lookup c

def classIn : List Nat → Nat → Nat
  | gap :: run :: k :: rest, code =>
    if code < gap then 0
    else if code < gap + run then k
    else classIn rest (code - gap - run)
  | _, _ => 0

def combiningClass (c : Char) : Nat := if c.toNat < 768 then 0 else classIn combiningRuns c.toNat

/-! ### Syllable blocks -/

/-- The first syllable block; blocks go by leading consonant, vowel and trailing consonant. -/
def firstBlock : Nat := 0xac00

def blockParts? (c : Char) : Option (List Char) :=
  let code := c.toNat
  if firstBlock ≤ code && code < firstBlock + 11172 then
    let i := code - firstBlock
    let leading := Char.ofNat (0x1100 + i / 588)
    let vowel := Char.ofNat (0x1161 + i % 588 / 28)
    some (leading :: vowel :: if i % 28 = 0 then [] else [Char.ofNat (0x11a7 + i % 28)])
  else none

/-- The syllable block of a consonant and a vowel, or of a block without and a consonant to end it. -/
def block? (a b : Char) : Option Char :=
  let x := a.toNat
  let y := b.toNat
  if 0x1100 ≤ x && x < 0x1113 && 0x1161 ≤ y && y < 0x1176 then
    some (Char.ofNat (firstBlock + ((x - 0x1100) * 21 + (y - 0x1161)) * 28))
  else if firstBlock ≤ x && x < firstBlock + 11172 && (x - firstBlock) % 28 = 0 && 0x11a7 < y && y < 0x11c3 then
    some (Char.ofNat (x + (y - 0x11a7)))
  else none

/-! ### The normal form -/

/-- The parts of a character, when parts are themselves taken apart so many times. -/
def decomposeWithin : Nat → Char → List Char
  | 0, c => [c]
  | depth + 1, c =>
    match parts? c with
    | some parts => parts.flatMap (decomposeWithin depth)
    | none => [c]

def decompose (c : Char) : List Char :=
  if c.toNat < 128 then [c]
  else
    match blockParts? c with
    | some parts => parts
    | none => decomposeWithin 4 c

/-- Puts a character before the marks of a higher class at the end of a reversed text. -/
def insertMark (c : Char) : List Char → List Char
  | [] => [c]
  | d :: rest =>
    if combiningClass c ≠ 0 && combiningClass c < combiningClass d then d :: insertMark c rest
    else c :: d :: rest

/-- Marks in the order of their classes, those of one class in the order in which they stand. -/
def orderMarks (cs : List Char) : List Char := (cs.foldl (fun done c => insertMark c done) []).reverse

def compose? (a b : Char) : Option Char :=
  match block? a b with
  | some c => some c
  | none => compositions.lookup (a, b)

/-- Composes the base of a text with the marks that follow it. `between` holds the marks that stay, in
reverse; a mark is out of reach behind one of its own or a higher class. -/
def composeFrom (base : Char) : List Char → List Char → List Char
  | between, [] => base :: between.reverse
  | between, c :: rest =>
    let reachable := match between with
      | [] => true
      | d :: _ => combiningClass d ≠ 0 && combiningClass d < combiningClass c
    match if reachable then compose? base c else none with
    | some composed => composeFrom composed between rest
    | none =>
      if combiningClass c = 0 then base :: between.reverse ++ composeFrom c [] rest
      else composeFrom base (c :: between) rest

/-- The text with all marks composed. Marks before the first base stay as they are. -/
def composeAll (cs : List Char) : List Char :=
  let marks := cs.takeWhile fun c => combiningClass c ≠ 0
  match cs.drop marks.length with
  | [] => marks
  | base :: rest => marks ++ composeFrom base [] rest

def normalForm (cs : List Char) : List Char :=
  if cs.all (·.toNat < 128) then cs else composeAll (orderMarks (cs.flatMap decompose))

end Bladewright.Text
