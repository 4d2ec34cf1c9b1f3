/-
What is particular to this site: its owner's home, its pages, its markup and its files.
-/
import PageShell.FileSystem.Basic

namespace PageShell.Site

/-! ## Names and places -/

/-- who owns the site -/
def user : String := "autumn"

/-- the host that the prompt shows -/
def host : String := "mck.is"

/-- the home directory -/
def home : String := "/home/autumn"

/-- directories that stand for a page of the site, each with its page -/
def pages : List (String × String) :=
  [("/home/autumn/projects", "/projects"), ("/home/autumn/blog", "/blog"),
    ("/home/autumn/uses", "/uses")]

/-- the page of a directory -/
def page? (directory : String) : Option String :=
  pages.lookup directory

/-- the variables that a session starts with -/
def environment : List (String × String) :=
  [("PATH", "/bin:/usr/bin"), ("HOME", home), ("USER", user), ("SHELL", "/bin/fauxsh"),
    ("TERM", "xterm-256color")]

/-- the first line of the transcript -/
def welcome : String := "Welcome! Type 'help' to see available commands."

/-- how many lines the transcript keeps -/
def transcriptCapacity : Nat := 1000

/-- how many entered lines can be recalled -/
def historyCapacity : Nat := 100

/-! ## Markup -/

/-- the card that says who owns the site -/
def profileCard : String :=
  "<div class=\"fetch-row\">\n\t<pre class=\"fetch-logo\">\n   /\\_/\\\n  ( o.o )\n   > ^ <\n\t</pre>\n"
    ++ "\t<div class=\"fetch-info\">\n"
    ++ "\t\t<p><b>autumn</b>@<b>mck.is</b></p>\n"
    ++ "\t\t<p>-----------</p>\n"
    ++ "\t\t<p><b>OS</b>: fauxsh (WebAssembly)</p>\n"
    ++ "\t\t<p><b>Shell</b>: fauxsh</p>\n"
    ++ "\t\t<p><b>Editor</b>: neovim</p>\n"
    ++ "\t\t<p><b>Languages</b>: Rust, TypeScript, C#</p>\n"
    ++ "\t\t<p><b>Contact</b>: <a href=\"mailto:autumn@mck.is\">autumn@mck.is</a></p>\n"
    ++ "\t</div>\n</div>\n"

/-- the element that shows what is playing -/
def nowPlaying : String :=
  "<music-display\n"
    ++ "\tnowPlayingApi=\"https://music-display.mck.is/now-playing\"\n"
    ++ "\twebsocketUrl=\"wss://music-display.mck.is/now-playing-ws\">\n"
    ++ "</music-display>\n"

/-- the owner's profile on Steam -/
def steamProfile : String := "https://steamcommunity.com/id/_weird_autumn_"

/-- the link to that profile -/
def steamLink : String :=
  "Opening <a href=\"" ++ steamProfile ++ "\" target=\"_blank\">Steam profile</a>"

/-- the address that opens the profile in Steam itself -/
def steamAddress : String := "steam://openurl/" ++ steamProfile

/-! ## Files -/

/-- the manifest of the site's files -/
def manifest : String := "\x7b
    \"bin\": \x7b
        \"cat\": \x7b \"@exec\": \"cat\" \x7d,
        \"cd\": \x7b \"@exec\": \"cd\" \x7d,
        \"echo\": \x7b \"@exec\": \"echo\" \x7d,
        \"ls\": \x7b \"@exec\": \"ls\" \x7d,
        \"ping\": \x7b \"@exec\": \"ping\" \x7d,
        \"pwd\": \x7b \"@exec\": \"pwd\" \x7d,
        \"fauxsh\": \x7b \"@exec\": \"help\" \x7d
    \x7d,
    \"usr\": \x7b
        \"bin\": \x7b
            \"clear\": \x7b \"@exec\": \"clear\" \x7d,
            \"env\": \x7b \"@exec\": \"env\" \x7d,
            \"fetch-music\": \x7b \"@exec\": \"fetch-music\" \x7d,
            \"help\": \x7b \"@exec\": \"help\" \x7d,
            \"steam\": \x7b \"@exec\": \"steam\" \x7d,
            \"tree\": \x7b \"@exec\": \"tree\" \x7d,
            \"which\": \x7b \"@exec\": \"which\" \x7d,
            \"whoami\": \x7b \"@exec\": \"whoami\" \x7d
        \x7d,
        \"share\": \x7b
            \"motd\": \"be nice to each other :)\"
        \x7d
    \x7d,
    \"etc\": \x7b
        \"hostname\": \"mck.is\",
        \"shells\": \"/bin/fauxsh\"
    \x7d,
    \"home\": \x7b
        \"autumn\": \x7b
            \"about.txt\": \"hi! I'm autumn.\\nI write code, mostly for the web, sometimes for fun.\\ntry `whoami`, `fetch-music` or `cd projects`.\",
            \"cat.png\": \"/images/cat.png\",
            \"projects\": \x7b
                \"README.md\": \"every project has its own page, cd here to open it.\"
            \x7d,
            \"blog\": \x7b
                \"README.md\": \"posts live on the blog page, cd here to open it.\"
            \x7d,
            \"uses\": \x7b
                \"README.md\": \"the hardware and software I use, cd here to open it.\"
            \x7d,
            \".secret\": \x7b \"@base64\": \"bWVvdw==\" \x7d
        \x7d
    \x7d\n\x7d\n"

/-- a directory of executables, each a name with its command -/
def executables (bound : List (String × Builtin)) : Entry :=
  .dir (bound.map fun b => (b.1, .exec b.2))

/-- the files of the site, which its manifest holds -/
def files : FileSystem := .ofChildren
  [("bin", executables
      [("cat", .cat), ("cd", .cd), ("echo", .echo), ("ls", .ls), ("ping", .ping), ("pwd", .pwd),
        ("fauxsh", .help)]),
    ("usr", .dir
      [("bin", executables
          [("clear", .clear), ("env", .env), ("fetch-music", .fetchMusic), ("help", .help),
            ("steam", .steam), ("tree", .tree), ("which", .which), ("whoami", .whoami)]),
        ("share", .dir [("motd", .text "be nice to each other :)")])]),
    ("etc", .dir [("hostname", .text "mck.is"), ("shells", .text "/bin/fauxsh")]),
    ("home", .dir
      [("autumn", .dir
        [("about.txt", .text
            ("hi! I'm autumn.\nI write code, mostly for the web, sometimes for fun.\n"
              ++ "try `whoami`, `fetch-music` or `cd projects`.")),
          ("cat.png", .text "/images/cat.png"),
          ("projects", .dir
            [("README.md", .text "every project has its own page, cd here to open it.")]),
          ("blog", .dir
            [("README.md", .text "posts live on the blog page, cd here to open it.")]),
          ("uses", .dir
            [("README.md", .text "the hardware and software I use, cd here to open it.")]),
          (".secret", .binary [109, 101, 111, 119])])])]

end PageShell.Site
